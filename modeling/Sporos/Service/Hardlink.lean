import Sporos.Lib.Actions
import Sporos.Lib.FileTree
import Sporos.Lib.Loop

/-! # The hardlink materialiser

`HardlinkMaterializer` links the files of a match below the namespace of its candidate. Directories
are made one component at a time and opened without following symbolic links; a link that is there
already counts as made when it is the file of its source.

The materialiser only adds to the file system, whether it succeeds or not: the directories of the
namespace, and directories and links below it. What it links is the file that the source was found
to be, and it can be repeated (`materialize_adds_only`). -/

namespace Sporos.Service.Hardlink

open Sporos.Lib.UnixPath Sporos.Lib.FileTree Sporos.Lib.Actions

/-- A path of the operating system, as its bytes. -/
abbrev PathBuf := List UInt8

/-- A link that is planned, with what is known of its source. -/
structure PlannedLink where
  sourceRoot : PathBuf
  sourceRelative : PathBuf
  destinationRelative : PathBuf
  expectedSize : ℕ
  expectedDevice : Option ℕ
  expectedInode : Option ℕ
  deriving DecidableEq

/-- A link that has been made, or has been there. -/
structure MaterializedLink where
  destinationRelative : PathBuf
  device : ℕ
  inode : ℕ
  size : ℕ
  existing : Bool
  deriving DecidableEq

/-- The root of the links, and its device. -/
structure HardlinkMaterializer where
  linkRoot : Place
  linkDevice : ℕ

/-- Why a link cannot be made. -/
inductive MaterializeError where
  | openLinkRoot (errno : Errno)
  | linkRootNotDirectory
  | unsafeRelativePath
  | createDirectory (errno : Errno)
  | openDirectory (errno : Errno)
  | openSourceRoot (errno : Errno)
  | sourceRootNotDirectory
  | openSource (errno : Errno)
  | sourceNotRegular
  | sourceSizeChanged
  | sourceIdentityChanged
  | deviceMismatch
  | createLink (errno : Errno)
  | openDestination (errno : Errno)
  | linkConflict
  deriving DecidableEq

/-- What the materialiser does to the file system. -/
abbrev Managed := Action Tree MaterializeError

/-- `open_absolute_directory`. -/
def openAbsoluteDirectory (path : PathBuf) (tree : Tree) : Except Errno (Place × Entry) :=
  if isAbsolute 47 path then tree.openat2 ⟨true, false⟩ [] path else .error .inval

/-- `HardlinkMaterializer::open`. -/
def HardlinkMaterializer.open (linkRoot : PathBuf) (tree : Tree) :
    Except MaterializeError HardlinkMaterializer :=
  match openAbsoluteDirectory linkRoot tree with
  | .error errno => .error (.openLinkRoot errno)
  | .ok (place, .directory device) => .ok ⟨place, device⟩
  | .ok _ => .error .linkRootNotDirectory

/-- A component that is a name. -/
def Component.isNormal : Component UInt8 → Bool
  | .normal _ => true
  | _ => false

/-- `validate_relative`: a path of names only. -/
def validateRelative (path : PathBuf) : Except MaterializeError Unit :=
  if path = [] ∨ isAbsolute 47 path ∨ (pathComponents 47 46 path).any (fun c =>
      !Component.isNormal c) then
    .error .unsafeRelativePath
  else .ok ()

/-- `open_directory`. -/
def openDirectory (root : Place) (path : PathBuf) (tree : Tree) : Except MaterializeError Place :=
  match tree.openat2 ⟨true, true⟩ root path with
  | .error errno => .error (.openDirectory errno)
  | .ok (place, _) => .ok place

/-- `mkdirat`, where a directory that is there is as good. -/
def makeDirectory (current : Place) (name : Name) : Managed Unit := fun tree =>
  match tree.mkdirat current name with
  | .ok tree' => (.ok (), tree')
  | .error .exist => (.ok (), tree)
  | .error errno => (.error (.createDirectory errno), tree)

/-- The body of the loop of `ensure_directory`. -/
def ensureComponent (current : Place) : Component UInt8 → Managed Place
  | .normal name => do
    makeDirectory current name
    reads (openDirectory current name)
  | _ => reads fun _ => .error .unsafeRelativePath

/-- `ensure_directory`. -/
def ensureDirectory (root : Place) (relative : PathBuf) : Managed Place := do
  reads fun _ => validateRelative relative
  let current ← reads (openDirectory root [46])
  (pathComponents 47 46 relative).foldlM ensureComponent current

/-- What `fstat` says of a regular file. -/
structure Metadata where
  device : ℕ
  inode : ℕ
  size : ℕ

variable (materializer : HardlinkMaterializer)

/-- The first part of `materialize_one`: the source is opened beneath its root and checked. -/
def inspectSource (link : PlannedLink) (tree : Tree) : Except MaterializeError Metadata := do
  validateRelative link.sourceRelative
  validateRelative link.destinationRelative
  match openAbsoluteDirectory link.sourceRoot tree with
  | .error errno => .error (.openSourceRoot errno)
  | .ok (sourceRoot, .directory _) =>
    match tree.openat2 ⟨false, true⟩ sourceRoot link.sourceRelative with
    | .error errno => .error (.openSource errno)
    | .ok (_, .regular device inode) =>
      if tree.size device inode ≠ link.expectedSize then .error .sourceSizeChanged
      else if link.expectedDevice.any (· ≠ device) ∨ link.expectedInode.any (· ≠ inode) then
        .error .sourceIdentityChanged
      else if device ≠ materializer.linkDevice then .error .deviceMismatch
      else .ok ⟨device, inode, tree.size device inode⟩
    | .ok _ => .error .sourceNotRegular
  | .ok _ => .error .sourceRootNotDirectory

/-- The parent of the destination: a parent that is empty is the namespace. -/
def ensureParent (namespaceDirectory : Place) (destination : PathBuf) : Managed Place :=
  match (parent 47 46 destination).filter (· ≠ []) with
  | some directory => ensureDirectory namespaceDirectory directory
  | none => pure namespaceDirectory

/-- The name of a link in its directory. -/
def destinationName (destination : PathBuf) : Except MaterializeError Name :=
  match fileName 47 46 destination with
  | some name => .ok name
  | none => .error .unsafeRelativePath

/-- The last part of `materialize_one`: link the source, or compare it with what is there. -/
def linkSource (destination : PathBuf) (metadata : Metadata) (directory : Place) (name : Name) :
    Managed MaterializedLink := fun tree =>
  match tree.linkat metadata.device metadata.inode directory name with
  | .ok tree' => (.ok ⟨destination, metadata.device, metadata.inode, metadata.size, false⟩, tree')
  | .error .exist =>
    match tree.openat2 ⟨false, true⟩ directory name with
    | .error errno => (.error (.openDestination errno), tree)
    | .ok (_, .regular device inode) =>
      if device = metadata.device ∧ inode = metadata.inode ∧ tree.size device inode =
          metadata.size then
        (.ok ⟨destination, metadata.device, metadata.inode, metadata.size, true⟩, tree)
      else (.error .linkConflict, tree)
    | .ok _ => (.error .linkConflict, tree)
  | .error errno => (.error (.createLink errno), tree)

/-- `materialize_one`. -/
def materializeOne (namespaceDirectory : Place) (link : PlannedLink) :
    Managed MaterializedLink := do
  let metadata ← reads (inspectSource materializer link)
  let directory ← ensureParent namespaceDirectory link.destinationRelative
  let name ← reads fun _ => destinationName link.destinationRelative
  linkSource link.destinationRelative metadata directory name

/-- `materialize`. -/
def materialize (namespaceRelative : PathBuf) (links : List PlannedLink) :
    Managed (List MaterializedLink) := do
  let namespaceDirectory ← ensureDirectory materializer.linkRoot namespaceRelative
  links.mapM (materializeOne materializer namespaceDirectory)

/-! ### Directories -/

section

variable {tree tree' : Tree} {allowed : Place → Entry → Prop} {current root place : Place}
  {name : Name} {path : PathBuf}

/-- A tree that has grown in any way. -/
def Later : Tree → Tree → Prop := Grows fun _ _ => True

theorem Later.refl (tree : Tree) : Later tree tree := Grows.refl _ tree

theorem Later.trans (tree tree' tree'' : Tree) (h : Later tree tree') (h' : Later tree' tree'') :
    Later tree tree'' := Grows.trans _ tree tree' tree'' h h'

theorem later_of_grows (tree tree' : Tree) (h : Grows allowed tree tree') : Later tree tree' :=
  h.mono fun _ _ _ => trivial

theorem validateRelative_eq_ok : validateRelative path = .ok () ↔
    path ≠ [] ∧ isAbsolute 47 path = false
      ∧ ∀ component ∈ pathComponents 47 46 path, ∃ name, component = .normal name := by
  have hnormal : ∀ component : Component UInt8,
      (!Component.isNormal component) = false ↔ ∃ name, component = .normal name := by
    intro component
    cases component <;> simp [Component.isNormal]
  unfold validateRelative
  split_ifs with h
  · refine ⟨fun heq => absurd heq (by simp), fun hok => absurd h ?_⟩
    simp only [hok.1, hok.2.1, Bool.false_eq_true, false_or, Bool.not_eq_true, List.any_eq_false]
    exact fun component hmem => by simp [(hnormal component).mpr (hok.2.2 component hmem)]
  · simp only [not_or, Bool.not_eq_true, List.any_eq_false] at h
    exact ⟨fun _ => ⟨h.1, h.2.1, fun component hmem =>
      (hnormal component).mp (by simpa using h.2.2 component hmem)⟩,
      fun _ => rfl⟩

theorem openDirectory_eq_ok : openDirectory root path tree = .ok place ↔
    ∃ device, tree.openat2 ⟨true, true⟩ root path = .ok (place, .directory device) := by
  unfold openDirectory
  constructor
  · intro h
    split at h
    · cases h
    · rename_i place' entry hopen
      obtain rfl := Except.ok.inj h
      obtain ⟨device, rfl⟩ := (Tree.openat2_eq_ok.mp hopen).2.2 rfl
      exact ⟨device, hopen⟩
  · rintro ⟨device, hopen⟩
    rw [hopen]

/-- Opening a name of a directory as a directory. -/
theorem openDirectory_name (hname : Normal 47 46 name) :
    openDirectory current name tree = .ok place ↔
    place = current ++ [name] ∧ ∃ device, tree.entry place = some (.directory device) := by
  rw [openDirectory_eq_ok]
  constructor
  · rintro ⟨device, hopen⟩
    obtain ⟨hplace, hentry, -⟩ := (Tree.openat2_name hname).mp hopen
    exact ⟨hplace, device, hentry⟩
  · rintro ⟨hplace, device, hentry⟩
    exact ⟨device, (Tree.openat2_name hname).mpr ⟨hplace, hentry, fun _ => ⟨device, rfl⟩⟩⟩

theorem openDirectory_current : openDirectory root [46] tree = .ok place ↔
    place = root ∧ ∃ device, tree.entry place = some (.directory device) := by
  rw [openDirectory_eq_ok]
  constructor
  · rintro ⟨device, hopen⟩
    obtain ⟨hplace, hentry, -⟩ := Tree.openat2_current.mp hopen
    exact ⟨hplace, device, hentry⟩
  · rintro ⟨hplace, device, hentry⟩
    exact ⟨device, Tree.openat2_current.mpr ⟨hplace, hentry, fun _ => ⟨device, rfl⟩⟩⟩

theorem again_openDirectory (root : Place) (path : PathBuf) :
    Again Later id (reads (openDirectory root path)) := by
  refine again_reads fun tree tree' place hlater h => ?_
  obtain ⟨device, hopen⟩ := openDirectory_eq_ok.mp h
  exact openDirectory_eq_ok.mpr ⟨device, Tree.openat2_mono hlater hopen⟩

theorem keeps_makeDirectory (hallowed : ∀ device, allowed (current ++ [name]) (.directory device)) :
    Keeps (Grows allowed) (makeDirectory current name) := by
  intro tree
  unfold makeDirectory
  split
  · rename_i tree' hmake
    refine Tree.grows_create hmake (fun device new hnew => ?_) fun device device' inode hnew => ?_
    · obtain rfl := Except.ok.inj hnew
      exact hallowed device
    · exact nomatch Except.ok.inj hnew
  · exact Grows.refl allowed tree
  · exact Grows.refl allowed tree

/-- A directory that is there is not made. -/
theorem makeDirectory_of_entry {entry : Entry} (h : tree.entry (current ++ [name]) = some entry) :
    makeDirectory current name tree = (.ok (), tree) := by
  simp only [makeDirectory, Tree.mkdirat, Tree.create_of_entry h]

theorem keeps_ensureComponent {component : Component UInt8}
    (hallowed : ∀ name device, component = .normal name →
      allowed (current ++ [name]) (.directory device)) :
    Keeps (Grows allowed) (ensureComponent current component) := by
  cases component with
  | normal name =>
    exact (keeps_makeDirectory fun device => hallowed name device rfl).bind (Grows.trans allowed)
      fun _ => keeps_reads (Grows.refl allowed) _
  | rootDir => exact keeps_reads (Grows.refl allowed) _
  | curDir => exact keeps_reads (Grows.refl allowed) _
  | parentDir => exact keeps_reads (Grows.refl allowed) _

theorem ensureComponent_eq_ok {component : Component UInt8}
    (hname : ∀ name, component = .normal name →
    Normal 47 46 name) (h : ensureComponent current component tree = (.ok place, tree')) :
    ∃ name device, component = .normal name ∧ place = current ++ [name]
      ∧ tree'.entry place = some (.directory device) := by
  cases component with
  | normal name =>
    obtain ⟨_, tree₁, -, hreads⟩ := bind_eq_ok.mp h
    obtain ⟨rfl, hopen⟩ := reads_eq_ok.mp hreads
    obtain ⟨hplace, device, hentry⟩ := (openDirectory_name (hname name rfl)).mp hopen
    exact ⟨name, device, rfl, hplace, hentry⟩
  | rootDir => exact nomatch (Prod.mk.inj h).1
  | curDir => exact nomatch (Prod.mk.inj h).1
  | parentDir => exact nomatch (Prod.mk.inj h).1

theorem again_ensureComponent {component : Component UInt8}
    (hname : ∀ name, component = .normal name → Normal 47 46 name) :
    Again Later id (ensureComponent current component) := by
  intro tree place tree' h tree'' hlater
  obtain ⟨name, device, rfl, rfl, hentry⟩ := ensureComponent_eq_ok hname h
  have hentry' := hlater.keeps hentry
  refine bind_eq_ok.mpr ⟨(), tree'', makeDirectory_of_entry hentry', reads_eq_ok.mpr ⟨rfl, ?_⟩⟩
  exact (openDirectory_name (hname name rfl)).mpr ⟨rfl, device, hentry'⟩

/-- The directories on the way down from a place. -/
def OnWay (root : Place) (names : List Name) (place : Place) (entry : Entry) : Prop :=
  (∃ device, entry = .directory device) ∧ root <+: place ∧ place <+: root ++ names

/-- What `ensure_directory` does below a directory, one name after the other. -/
theorem grows_descend : ∀ (names : List Name) (current : Place) (tree : Tree),
    (∀ name ∈ names, Normal 47 46 name) →
      Grows (OnWay current names) tree
        (((names.map .normal).foldlM ensureComponent current : Managed Place) tree).2
  | [], current, tree, _ => Grows.refl _ tree
  | name :: names, current, tree, hnames => by
    rw [List.map_cons, List.foldlM_cons]
    refine bind_rel (Grows.trans _) (keeps_ensureComponent (fun name' device hname => ?_) tree) ?_
    · obtain rfl := Component.normal.inj hname
      exact ⟨⟨device, rfl⟩, List.prefix_append .., by simp⟩
    · intro place tree' hrun
      obtain ⟨name', device, hname, rfl, -⟩ := ensureComponent_eq_ok
        (fun name' hname => Component.normal.inj hname ▸ hnames name (by simp)) hrun
      obtain rfl := Component.normal.inj hname
      refine (grows_descend names (current ++ [name]) tree' fun n hn =>
        hnames n (by simp [hn])).mono ?_
      rintro place entry ⟨hentry, hroot, hway⟩
      exact ⟨hentry, (List.prefix_append ..).trans hroot, by simpa using hway⟩

theorem descend_eq_ok : ∀ {names : List Name} {current : Place} {tree : Tree},
    (∀ name ∈ names, Normal 47 46 name) →
      (∃ device, tree.entry current = some (.directory device)) →
      ((names.map .normal).foldlM ensureComponent current : Managed Place) tree =
        (.ok place, tree') →
        place = current ++ names ∧ ∃ device, tree'.entry place = some (.directory device)
  | [], current, tree, _, hdirectory, h => by
    obtain ⟨hplace, rfl⟩ := Prod.mk.inj h
    obtain rfl := Except.ok.inj hplace
    exact ⟨by simp, hdirectory⟩
  | name :: names, current, tree, hnames, _, h => by
    rw [List.map_cons, List.foldlM_cons] at h
    obtain ⟨middle, tree₁, hrun, hrest⟩ := bind_eq_ok.mp h
    obtain ⟨name', device, hname, rfl, hentry⟩ := ensureComponent_eq_ok
      (fun name' hname => Component.normal.inj hname ▸ hnames name (by simp)) hrun
    obtain rfl := Component.normal.inj hname
    obtain ⟨hplace, hdirectory⟩ :=
      descend_eq_ok (fun n hn => hnames n (by simp [hn])) ⟨device, hentry⟩ hrest
    exact ⟨by simpa using hplace, hdirectory⟩

/-- The names of a path. -/
def names (path : PathBuf) : List Name := components 47 46 path

theorem pathComponents_of_valid (h : validateRelative path = .ok ()) :
    pathComponents 47 46 path = (names path).map .normal ∧ ∀ name ∈ names path,
      Normal 47 46 name := by
  have heq := pathComponents_eq_map (validateRelative_eq_ok.mp h).2.2
  refine ⟨heq, fun name hname => normal_of_mem_pathComponents (?_ : _ ∈ pathComponents 47 46 path)⟩
  rw [heq]
  exact List.mem_map_of_mem hname

/-- **`ensure_directory` only makes directories**, on the way that it is to go. -/
theorem keeps_ensureDirectory (root : Place) (path : PathBuf) :
    Keeps (Grows (OnWay root (names path))) (ensureDirectory root path) := by
  intro tree
  refine bind_rel (Grows.trans _) (Grows.refl _ tree) fun _ tree₁ hreads => ?_
  obtain ⟨rfl, hvalid⟩ := reads_eq_ok.mp hreads
  refine bind_rel (Grows.trans _) (Grows.refl _ tree) fun current tree₂ hreads => ?_
  obtain ⟨rfl, hopen⟩ := reads_eq_ok.mp hreads
  obtain ⟨rfl, -⟩ := openDirectory_current.mp hopen
  obtain ⟨heq, hnames⟩ := pathComponents_of_valid hvalid
  rw [heq]
  exact grows_descend (names path) current tree hnames

theorem ensureDirectory_eq_ok (h : ensureDirectory root path tree = (.ok place, tree')) :
    validateRelative path = .ok () ∧ place = root ++ names path
      ∧ ∃ device, tree'.entry place = some (.directory device) := by
  obtain ⟨_, tree₁, hreads, hnext⟩ := bind_eq_ok.mp h
  obtain ⟨rfl, hvalid⟩ := reads_eq_ok.mp hreads
  obtain ⟨current, tree₂, hreads', hloop⟩ := bind_eq_ok.mp hnext
  obtain ⟨rfl, hopen⟩ := reads_eq_ok.mp hreads'
  obtain ⟨rfl, hdirectory⟩ := openDirectory_current.mp hopen
  obtain ⟨heq, hnames⟩ := pathComponents_of_valid hvalid
  rw [heq] at hloop
  exact ⟨hvalid, descend_eq_ok hnames hdirectory hloop⟩

theorem keeps_later_ensureComponent (current : Place) (component : Component UInt8) :
    Keeps Later (ensureComponent current component) := keeps_ensureComponent fun _ _ _ => trivial

theorem again_ensureDirectory (root : Place) (path : PathBuf) :
    Again Later id (ensureDirectory root path) := by
  have hloop : ∀ current,
      Keeps Later ((pathComponents 47 46 path).foldlM ensureComponent current) :=
    Keeps.foldlM Later.trans Later.refl keeps_later_ensureComponent _
  refine Again.bind Later.trans (again_reads fun _ _ _ _ h => h) (fun _ => ?_) fun _ => ?_
  · exact (keeps_reads Later.refl _).bind Later.trans hloop
  · refine (again_openDirectory root [46]).bind Later.trans hloop fun current => ?_
    refine Again.foldlM Later.trans Later.refl keeps_later_ensureComponent _ current ?_
    rintro current component hmem
    refine again_ensureComponent ?_
    rintro name rfl
    exact normal_of_mem_pathComponents hmem

end

/-! ### Links -/

section

variable {materializer : HardlinkMaterializer} {tree tree' : Tree} {allowed : Place → Entry → Prop}
  {namespaceDirectory directory : Place} {name : Name} {link : PlannedLink} {metadata : Metadata}

/-- What the checks of a source say. -/
structure Inspected (materializer : HardlinkMaterializer) (link : PlannedLink) (tree : Tree)
    (metadata : Metadata) : Prop where
  source : validateRelative link.sourceRelative = .ok ()
  destination : validateRelative link.destinationRelative = .ok ()
  opened : ∃ root device place, openAbsoluteDirectory link.sourceRoot tree = .ok (root,
    .directory device)
    ∧ tree.openat2 ⟨false, true⟩ root link.sourceRelative
      = .ok (place, .regular metadata.device metadata.inode)
    ∧ tree.entry place = some (.regular metadata.device metadata.inode)
  size : tree.size metadata.device metadata.inode = metadata.size
  expectedSize : metadata.size = link.expectedSize
  expectedDevice : ∀ device ∈ link.expectedDevice, device = metadata.device
  expectedInode : ∀ inode ∈ link.expectedInode, inode = metadata.inode
  linkDevice : metadata.device = materializer.linkDevice

theorem inspectSource_eq_ok :
    inspectSource materializer link tree = .ok metadata
      ↔ Inspected materializer link tree metadata := by
  unfold inspectSource
  constructor
  · intro h
    obtain ⟨_, hsource, hnext⟩ := Sporos.Lib.Loop.bind_eq_ok.mp h
    obtain ⟨_, hdestination, hopened⟩ := Sporos.Lib.Loop.bind_eq_ok.mp hnext
    split at hopened
    · cases hopened
    · rename_i root rootDevice hroot
      split at hopened
      · cases hopened
      · rename_i place device inode hopen
        split_ifs at hopened with hsize hidentity hdevice
        obtain rfl := Except.ok.inj hopened
        simp only [Option.any_eq_true, not_or, not_exists, not_and, decide_eq_true_eq,
          not_not] at hidentity
        refine ⟨hsource, hdestination, ⟨root, rootDevice, place, hroot, hopen, ?_⟩, rfl,
          not_not.mp hsize, fun d hd => hidentity.1 d hd, fun i hi => hidentity.2 i hi,
          not_not.mp hdevice⟩
        exact Tree.entry_of_walk (Tree.openat2_eq_ok.mp hopen).2.1
      · cases hopened
    · cases hopened
  · rintro ⟨hsource, hdestination, ⟨root, rootDevice, place, hroot, hopen, -⟩, hsize,
      hexpected, hdevice, hinode, hlink⟩
    have hidentity : ¬ (link.expectedDevice.any (· ≠ metadata.device) = true
        ∨ link.expectedInode.any (· ≠ metadata.inode) = true) := by
      simp only [Option.any_eq_true, not_or, not_exists, not_and, decide_eq_true_eq, not_not]
      exact ⟨fun d hd => hdevice d hd, fun i hi => hinode i hi⟩
    refine Sporos.Lib.Loop.bind_eq_ok.mpr ⟨(), hsource, Sporos.Lib.Loop.bind_eq_ok.mpr ⟨(),
      hdestination, ?_⟩⟩
    simp only [hroot, hopen]
    rw [if_neg (not_not.mpr (hsize.trans hexpected)), if_neg hidentity,
      if_neg (not_not.mpr hlink), hsize]

theorem Inspected.later (h : Inspected materializer link tree metadata)
    (hlater : Later tree tree') : Inspected materializer link tree' metadata := by
  obtain ⟨root, device, place, hroot, hopen, hentry⟩ := h.opened
  refine ⟨h.source, h.destination, ⟨root, device, place, ?_, Tree.openat2_mono hlater hopen,
    hlater.keeps hentry⟩, by rw [hlater.sizes, h.size], h.expectedSize, h.expectedDevice,
      h.expectedInode, h.linkDevice⟩
  unfold openAbsoluteDirectory at hroot ⊢
  split_ifs at hroot ⊢
  exact Tree.openat2_mono hlater hroot

/-- What may appear below a directory. -/
def Below (root : Place) (place : Place) (entry : Entry) : Prop :=
  root <+: place ∧ ((∃ device, entry = .directory device) ∨
    place ≠ root ∧ ∃ device inode, entry = .regular device inode)

/-- What one link may add: the directories above it, and itself. -/
def Placed (root : Place) (names : List Name) (place : Place) (entry : Entry) : Prop :=
  OnWay root names place entry ∨
    place = root ++ names ∧ names ≠ [] ∧ ∃ device inode, entry = .regular device inode

theorem below_of_placed {names : List Name} (place : Place) (entry : Entry)
    (h : Placed namespaceDirectory names place entry) : Below namespaceDirectory place entry := by
  rcases h with ⟨hdirectory, hroot, -⟩ | ⟨rfl, hnames, hregular⟩
  · exact ⟨hroot, .inl hdirectory⟩
  · exact ⟨List.prefix_append .., .inr ⟨by simpa using hnames, hregular⟩⟩

theorem keeps_ensureParent (namespaceDirectory : Place) (destination : PathBuf) :
    Keeps (Grows (OnWay namespaceDirectory (names destination)))
      (ensureParent namespaceDirectory destination) := by
  unfold ensureParent
  split
  · rename_i directory hdirectory
    have hstart : names directory <+: names destination :=
      components_prefix_of_parent (Option.filter_eq_some_iff.mp hdirectory).1
    refine (keeps_ensureDirectory _ _).mono fun _ _ h => h.mono ?_
    rintro place entry ⟨hentry, hroot, hway⟩
    exact ⟨hentry, hroot, hway.trans ((List.prefix_append_right_inj _).mpr hstart)⟩
  · exact fun tree => Grows.refl _ tree

theorem again_ensureParent (namespaceDirectory : Place) (destination : PathBuf) :
    Again Later id (ensureParent namespaceDirectory destination) := by
  unfold ensureParent
  split
  · exact again_ensureDirectory _ _
  · intro tree place tree' h tree'' _
    obtain ⟨hplace, -⟩ := Prod.mk.inj h
    obtain rfl := Except.ok.inj hplace
    rfl

theorem destinationName_eq_ok {destination : PathBuf} :
    destinationName destination = .ok name ↔ fileName 47 46 destination = some name := by
  unfold destinationName
  split <;> simp_all

/-- The parent of a destination and its name make up its path. -/
theorem ensureParent_eq_ok {destination : PathBuf} (hname : fileName 47 46 destination = some name)
    (h : ensureParent namespaceDirectory destination tree = (.ok directory, tree')) :
    directory ++ [name] = namespaceDirectory ++ names destination := by
  obtain ⟨-, front, hparent, hcomponents⟩ := components_eq_of_fileName hname
  unfold ensureParent at h
  rw [hparent] at h
  have hnames : names destination = names front ++ [name] := hcomponents
  by_cases hfront : front = []
  · subst hfront
    obtain ⟨hplace, -⟩ := Prod.mk.inj h
    obtain rfl := Except.ok.inj hplace
    rw [hnames]
    rfl
  · rw [Option.filter_some, if_pos (by simpa using hfront)] at h
    obtain ⟨-, rfl, -⟩ := ensureDirectory_eq_ok h
    rw [hnames, List.append_assoc]

theorem grows_linkSource {destination : PathBuf} {source : Place}
    (hsource : tree.entry source = some (.regular metadata.device metadata.inode))
    (hallowed : allowed (directory ++ [name]) (.regular metadata.device metadata.inode)) :
    Grows allowed tree (linkSource destination metadata directory name tree).2 := by
  unfold linkSource
  split
  · rename_i tree' hlink
    refine Tree.grows_create hlink (fun device new hnew => ?_) fun device device' inode hnew => ?_
    · split_ifs at hnew
      obtain rfl := Except.ok.inj hnew
      exact hallowed
    · split_ifs at hnew
      obtain ⟨rfl, rfl⟩ := Entry.regular.inj (Except.ok.inj hnew)
      exact ⟨source, hsource⟩
  · split
    · exact Grows.refl allowed tree
    · split <;> exact Grows.refl allowed tree
    · exact Grows.refl allowed tree
  · exact Grows.refl allowed tree

/-- A link that was made, or was there, is the file of the source. -/
theorem linkSource_eq_ok {destination : PathBuf} {linked : MaterializedLink}
    (hname : Normal 47 46 name)
    (h : linkSource destination metadata directory name tree = (.ok linked, tree')) :
    (∃ existing, linked = ⟨destination, metadata.device, metadata.inode, metadata.size, existing⟩)
      ∧ tree'.entry (directory ++ [name]) = some (.regular metadata.device metadata.inode) := by
  unfold linkSource at h
  split at h
  · rename_i tree₁ hlink
    obtain ⟨hlinked, rfl⟩ := Prod.mk.inj h
    obtain ⟨device, new, -, -, -, hnew, -, hentry⟩ := Tree.create_eq_ok hlink
    split_ifs at hnew
    obtain rfl := Except.ok.inj hnew
    exact ⟨⟨false, (Except.ok.inj hlinked).symm⟩, by rw [hentry, if_pos rfl]⟩
  · split at h
    · cases h
    · rename_i place device inode hopen
      split_ifs at h with hsame
      · obtain ⟨hlinked, rfl⟩ := Prod.mk.inj h
        obtain ⟨rfl, rfl, -⟩ := hsame
        obtain ⟨rfl, hentry, -⟩ := (Tree.openat2_name hname).mp hopen
        exact ⟨⟨true, (Except.ok.inj hlinked).symm⟩, hentry⟩
      · cases h
    · cases h
  · cases h

/-- A link that is there is found again. -/
theorem linkSource_of_entry {destination : PathBuf} (hname : Normal 47 46 name)
    (hentry : tree.entry (directory ++ [name]) = some (.regular metadata.device metadata.inode))
    (hsize : tree.size metadata.device metadata.inode = metadata.size) :
    linkSource destination metadata directory name tree
      = (.ok ⟨destination, metadata.device, metadata.inode, metadata.size, true⟩, tree) := by
  have hopen : tree.openat2 ⟨false, true⟩ directory name
      = .ok (directory ++ [name], .regular metadata.device metadata.inode) :=
    (Tree.openat2_name hname).mpr ⟨rfl, hentry, fun h => nomatch h⟩
  simp [linkSource, Tree.linkat, Tree.create_of_entry hentry, hopen, hsize]

/-! ### Materialising -/

theorem materializeOne_eq_ok {linked : MaterializedLink} :
    materializeOne materializer namespaceDirectory link tree = (.ok linked, tree') ↔
      ∃ metadata directory name tree₁, Inspected materializer link tree metadata
        ∧ ensureParent namespaceDirectory link.destinationRelative tree = (.ok directory, tree₁)
        ∧ fileName 47 46 link.destinationRelative = some name
        ∧ linkSource link.destinationRelative metadata directory name tree₁ =
          (.ok linked, tree') := by
  constructor
  · intro h
    obtain ⟨metadata, _, hreads, hnext⟩ := bind_eq_ok.mp h
    obtain ⟨rfl, hinspect⟩ := reads_eq_ok.mp hreads
    obtain ⟨directory, tree₁, hparent, hnext'⟩ := bind_eq_ok.mp hnext
    obtain ⟨name, _, hreads', hlink⟩ := bind_eq_ok.mp hnext'
    obtain ⟨rfl, hname⟩ := reads_eq_ok.mp hreads'
    exact ⟨metadata, directory, name, tree₁, inspectSource_eq_ok.mp hinspect, hparent,
      destinationName_eq_ok.mp hname, hlink⟩
  · rintro ⟨metadata, directory, name, tree₁, hinspect, hparent, hname, hlink⟩
    exact bind_eq_ok.mpr ⟨metadata, tree, reads_eq_ok.mpr ⟨rfl, inspectSource_eq_ok.mpr hinspect⟩,
      bind_eq_ok.mpr ⟨directory, tree₁, hparent,
        bind_eq_ok.mpr ⟨name, tree₁,
          reads_eq_ok.mpr ⟨rfl, destinationName_eq_ok.mpr hname⟩, hlink⟩⟩⟩

theorem keeps_materializeOne (materializer : HardlinkMaterializer) (namespaceDirectory : Place)
    (link : PlannedLink) :
    Keeps (Grows (Placed namespaceDirectory (names link.destinationRelative)))
      (materializeOne materializer namespaceDirectory link) := by
  intro tree
  refine bind_rel (Grows.trans _) (Grows.refl _ tree) fun metadata _ hreads => ?_
  obtain ⟨rfl, hinspect⟩ := reads_eq_ok.mp hreads
  obtain ⟨-, -, place, -, -, hsource⟩ := (inspectSource_eq_ok.mp hinspect).opened
  have hkeeps := keeps_ensureParent namespaceDirectory link.destinationRelative
  refine bind_rel (Grows.trans _) ((hkeeps tree).mono
    fun _ _ => .inl) fun directory tree₁ hparent => ?_
  refine bind_rel (Grows.trans _) (Grows.refl _ tree₁) fun name _ hreads => ?_
  obtain ⟨rfl, hname⟩ := reads_eq_ok.mp hreads
  rw [destinationName_eq_ok] at hname
  obtain ⟨-, front, -, hcomponents⟩ := components_eq_of_fileName hname
  have hnames : names link.destinationRelative ≠ [] := by
    rw [names, hcomponents]
    simp
  refine grows_linkSource ((hkeeps.of_ok hparent).keeps hsource) ?_
  rw [ensureParent_eq_ok hname hparent]
  exact .inr ⟨rfl, hnames, metadata.device, metadata.inode, rfl⟩

theorem keeps_below_materializeOne (materializer : HardlinkMaterializer)
    (namespaceDirectory : Place) (link : PlannedLink) :
    Keeps (Grows (Below namespaceDirectory))
      (materializeOne materializer namespaceDirectory link) :=
  (keeps_materializeOne materializer namespaceDirectory link).mono fun _ _ h =>
    h.mono below_of_placed

/-- What is linked: the file that the source was found to be. The destination leads to it without
symbolic links. -/
structure Linked (materializer : HardlinkMaterializer) (namespaceDirectory : Place) (tree : Tree)
    (link : PlannedLink) (linked : MaterializedLink) : Prop where
  destination : linked.destinationRelative = link.destinationRelative
  inspected : Inspected materializer link tree ⟨linked.device, linked.inode, linked.size⟩
  resolves : ∀ scope, tree.walk scope namespaceDirectory (names link.destinationRelative)
    = .ok (namespaceDirectory ++ names link.destinationRelative,
      .regular linked.device linked.inode)

theorem Linked.later {linked : MaterializedLink}
    (h : Linked materializer namespaceDirectory tree link linked) (hlater : Later tree tree') :
      Linked materializer namespaceDirectory tree' link linked :=
  ⟨h.destination, h.inspected.later hlater, fun scope => Tree.walk_mono hlater (h.resolves scope)⟩

theorem linked_materializeOne {linked : MaterializedLink}
    (h : materializeOne materializer namespaceDirectory link tree = (.ok linked, tree')) :
    Linked materializer namespaceDirectory tree' link linked := by
  have hlater :=
    later_of_grows _ _ ((keeps_materializeOne materializer namespaceDirectory link).of_ok h)
  obtain ⟨metadata, directory, name, tree₁, hinspect, hparent, hname, hlink⟩ :=
    materializeOne_eq_ok.mp h
  obtain ⟨hnormal, front, -, hcomponents⟩ := components_eq_of_fileName hname
  obtain ⟨⟨existing, rfl⟩, hentry⟩ := linkSource_eq_ok hnormal hlink
  rw [ensureParent_eq_ok hname hparent] at hentry
  have hnames : names link.destinationRelative ≠ [] := by
    rw [names, hcomponents]
    simp
  exact ⟨rfl, hinspect.later hlater, fun scope => Tree.walk_names hnames hentry⟩

/-- What a link is when it is made again. -/
def MaterializedLink.again (linked : MaterializedLink) : MaterializedLink :=
  { linked with existing := true }

theorem again_materializeOne (namespaceDirectory : Place) (link : PlannedLink) :
    Again Later MaterializedLink.again (materializeOne materializer namespaceDirectory link) := by
  intro tree linked tree' h tree'' hlater
  have hlinked := (linked_materializeOne h).later hlater
  obtain ⟨metadata, directory, name, tree₁, hinspect, hparent, hname, hlink⟩ :=
    materializeOne_eq_ok.mp h
  obtain ⟨hnormal, -⟩ := components_eq_of_fileName hname
  obtain ⟨⟨existing, rfl⟩, hentry⟩ := linkSource_eq_ok hnormal hlink
  obtain ⟨-, -, place, -, -, hsource⟩ := hinspect.opened
  have hsource₁ := ((keeps_ensureParent _ _).of_ok hparent).keeps hsource
  have hgrows : Later tree₁ (linkSource link.destinationRelative metadata directory name tree₁).2 :=
    grows_linkSource hsource₁ trivial
  rw [hlink] at hgrows
  refine materializeOne_eq_ok.mpr ⟨metadata, directory, name, tree'', hlinked.inspected,
    again_ensureParent _ _ hparent (Later.trans _ _ _ hgrows hlater), hname, ?_⟩
  exact linkSource_of_entry hnormal (hlater.keeps hentry) hlinked.inspected.size

end

/-- What a call may add: the directories of the namespace, and directories and links below it. -/
def Added (root : Place) (names : List Name) (place : Place) (entry : Entry) : Prop :=
  OnWay root names place entry ∨ Below (root ++ names) place entry

/-- **The materialiser only adds**, whether it succeeds or not: the directories of the namespace
below the link root, and directories and further links of files below the namespace. If it succeeds,
every destination leads to the file of its source, as it was planned; a second call finds every link
and changes nothing. -/
theorem materialize_adds_only (namespaceRelative : PathBuf)
    (links : List PlannedLink) (tree : Tree) :
    Grows (Added materializer.linkRoot (names namespaceRelative)) tree
        (materialize materializer namespaceRelative links tree).2
      ∧ ∀ linked after, materialize materializer namespaceRelative links tree =
        (.ok linked, after) →
        List.Forall₂
            (Linked materializer (materializer.linkRoot ++ names namespaceRelative)
              after) links linked
          ∧ materialize materializer namespaceRelative links after
            = (.ok (linked.map MaterializedLink.again), after) := by
  have hensure := keeps_ensureDirectory materializer.linkRoot namespaceRelative
  have hone : ∀ namespaceDirectory link,
      Keeps Later (materializeOne materializer namespaceDirectory link) :=
    fun namespaceDirectory link =>
      (keeps_materializeOne materializer namespaceDirectory link).mono later_of_grows
  refine ⟨?_, fun linked after h => ⟨?_, ?_⟩⟩
  · refine bind_rel (Grows.trans _) ((hensure tree).mono
      fun _ _ => .inl) fun place tree₁ hplace => ?_
    obtain ⟨-, rfl, -⟩ := ensureDirectory_eq_ok hplace
    have hlinks := Keeps.mapM (Grows.trans _) (Grows.refl _)
      (keeps_below_materializeOne materializer (materializer.linkRoot
        ++ names namespaceRelative)) links tree₁
    exact hlinks.mono fun _ _ => .inr
  · obtain ⟨place, tree₁, hplace, hlinks⟩ := bind_eq_ok.mp h
    obtain ⟨-, rfl, -⟩ := ensureDirectory_eq_ok hplace
    exact forall₂_mapM Later.trans Later.refl (hone _) (fun _ _ _ _ hlater hlinked =>
      hlinked.later hlater)
      (fun _ _ _ _ => linked_materializeOne) hlinks
  · have hagain : Again Later (List.map MaterializedLink.again)
        (materialize materializer namespaceRelative links) :=
      (again_ensureDirectory _ _).bind Later.trans
        (fun place => Keeps.mapM Later.trans Later.refl (hone place) links)
        fun place =>
          Again.mapM Later.trans Later.refl (hone place) (again_materializeOne place) links
    exact hagain h (Later.refl after)

/-- A file system with nothing in it. -/
def bareTree : Tree where
  entry place := if place = [] then some (.directory 1) else none
  content _ _ := []
  root := ⟨1, rfl⟩
  parents place name h := by simp at h
  names place h name hname := by
    split_ifs at h with hplace
    · simp [hplace] at hname
    · cases h

/-- A file `v` is linked as `a/b/c`, and found there when it is linked again. -/
example : (bareTree.create [] [118] fun device => .ok (.regular device 7)).map (fun tree =>
    let first := materialize ⟨[], 1⟩ [97] [⟨[47], [118], [98, 47, 99], 0, none, some 7⟩] tree
    (first.1, (materialize ⟨[], 1⟩ [97] [⟨[47], [118], [98, 47, 99], 0, none, some 7⟩] first.2).1))
      = .ok (.ok [⟨[98, 47, 99], 1, 7, 0, false⟩], .ok [⟨[98, 47, 99], 1, 7, 0, true⟩]) := by
  rfl

/-- The directory above the namespace `ab/c` is new too, though it is not below the namespace. -/
theorem materialize_adds_above_namespace :
    ¬ Grows (fun place _ => names [97, 98, 47, 99] <+: place) bareTree
      (materialize ⟨[], 1⟩ [97, 98, 47, 99] [] bareTree).2 := by
  intro h
  have hnew : (materialize ⟨[], 1⟩ [97, 98, 47, 99] [] bareTree).2.entry [[97, 98]] =
      some (.directory 1) := by
    decide +kernel
  have hbelow := h.adds (by decide) hnew
  revert hbelow
  decide +kernel

end Sporos.Service.Hardlink
