import Sporos.Matcher.Soundness
import Sporos.Service.Hardlink

/-! # Accepted paths

A manifest that `validate_manifest` accepts has no path twice and no path that is a directory of
another one, where paths are compared as normalised text. The materialiser walks the bytes of the
paths as they are. Normalisation acts on each component, so what is different normalised is
different: the paths of a match can be linked into an empty namespace without getting in each
other's way (`matched_paths_link`). -/

namespace Sporos.Service.AcceptedPaths

open Sporos.Lib.UnixPath Sporos.Lib.FileTree Sporos.Lib.Actions
open Sporos.Service.Hardlink

/-! ### Clear ways -/

section

variable {tree tree' : Tree} {current root : Place} {name : Name} {path : PathBuf}

/-- The way down from a directory is clear: what is on it is a directory. -/
def Clear (tree : Tree) (root : Place) (names : List Name) : Prop :=
  ∀ front, front <+: names → ∀ entry, tree.entry (root ++ front) = some entry → ∃ device,
    entry = .directory device

/-- A name that cannot be. -/
def Refused (error : MaterializeError) : Prop :=
  error = .createDirectory .inval ∨ error = .createDirectory .nametoolong

theorem nameErrno_normal (hname : Normal 47 46 name) (hvalid : ¬ Valid name) :
    Tree.nameErrno name = .inval ∨ Tree.nameErrno name = .nametoolong := by
  unfold Tree.nameErrno
  split_ifs with hnul hdots hlong
  · exact .inl rfl
  · exact absurd hdots (by simp [hname.current, hname.parent])
  · exact .inr rfl
  · exact absurd ⟨hname, hnul, Nat.not_lt.mp hlong⟩ hvalid

/-- Making a directory where nothing else is. -/
theorem makeDirectory_clear (hdirectory : ∃ device, tree.entry current = some (.directory device))
    (hname : Normal 47 46 name)
    (hclear : ∀ entry, tree.entry (current ++ [name]) = some entry → ∃ device,
      entry = .directory device) :
    FailsOnly Refused (makeDirectory current name) tree
      ∧ ∀ tree', makeDirectory current name tree = (.ok (), tree') →
        (∃ device, tree'.entry (current ++ [name]) = some (.directory device))
        ∧ ∀ place, place ≠ current ++ [name] → tree'.entry place = tree.entry place := by
  rcases hentry : tree.entry (current ++ [name]) with _ | entry
  · obtain ⟨device, hdirectory⟩ := hdirectory
    rcases hmake : tree.mkdirat current name with errno | tree₁
    · have hrefused : makeDirectory current name tree = (.error (.createDirectory errno), tree)
          ∧ Refused (.createDirectory errno) := by
        rcases Tree.create_eq_error hdirectory hentry hmake with ⟨hvalid, rfl⟩ | hok
        · rcases nameErrno_normal hname hvalid with herrno | herrno
          · exact ⟨by simp [makeDirectory, hmake, herrno], .inl (by rw [herrno])⟩
          · exact ⟨by simp [makeDirectory, hmake, herrno], .inr (by rw [herrno])⟩
        · cases hok
      refine ⟨failsOnly_of_error hrefused.1 hrefused.2, fun tree' h => ?_⟩
      cases (Prod.mk.inj (hrefused.1.symm.trans h)).1
    · have hrun : makeDirectory current name tree = (.ok (), tree₁) := by
        simp [makeDirectory, hmake]
      obtain ⟨device', new, -, -, -, hnew, -, hentries⟩ := Tree.create_eq_ok hmake
      obtain rfl := Except.ok.inj hnew
      refine ⟨failsOnly_of_ok hrun, fun tree' h => ?_⟩
      obtain ⟨-, rfl⟩ := Prod.mk.inj (hrun.symm.trans h)
      exact ⟨⟨device', by rw [hentries, if_pos rfl]⟩,
        fun place hplace => by rw [hentries, if_neg hplace]⟩
  · have hrun := makeDirectory_of_entry hentry
    refine ⟨failsOnly_of_ok hrun, fun tree' h => ?_⟩
    obtain ⟨-, rfl⟩ := Prod.mk.inj (hrun.symm.trans h)
    obtain ⟨device, rfl⟩ := hclear entry hentry
    exact ⟨⟨device, hentry⟩, fun _ _ => rfl⟩

theorem descend_clear : ∀ {names : List Name} {current : Place} {tree : Tree},
    (∀ name ∈ names, Normal 47 46 name) →
      (∃ device, tree.entry current = some (.directory device)) →
      Clear tree current names →
        FailsOnly Refused ((names.map .normal).foldlM ensureComponent current : Managed Place) tree
  | [], _, _, _, _, _ => failsOnly_of_ok rfl
  | name :: names, current, tree, hnames, hdirectory, hclear => by
    have hname := hnames name (by simp)
    obtain ⟨hfails, hmade⟩ := makeDirectory_clear hdirectory hname (hclear [name] (by simp))
    rw [List.map_cons, List.foldlM_cons]
    refine FailsOnly.bind (FailsOnly.bind hfails fun _ tree₁ hmake => ?_) fun place tree₁ hrun => ?_
    · obtain ⟨hentry, -⟩ := hmade tree₁ hmake
      exact failsOnly_of_ok (reads_eq_ok.mpr ⟨rfl, (openDirectory_name hname).mpr ⟨rfl, hentry⟩⟩)
    · obtain ⟨_, tree₂, hmake, hreads⟩ := bind_eq_ok.mp hrun
      obtain ⟨rfl, hopen⟩ := reads_eq_ok.mp hreads
      obtain ⟨rfl, hentry⟩ := (openDirectory_name hname).mp hopen
      obtain ⟨-, hsame⟩ := hmade tree₂ hmake
      refine descend_clear (fun n hn => hnames n (by simp [hn])) hentry
        fun front hfront entry hsome => ?_
      by_cases hempty : front = []
      · subst hempty
        obtain ⟨device, hdevice⟩ := hentry
        rw [List.append_nil, hdevice] at hsome
        exact ⟨device, (Option.some.inj hsome).symm⟩
      · rw [hsame _ (by simpa using hempty), List.append_assoc] at hsome
        exact hclear (name :: front) (by simpa using hfront) entry hsome

/-- **On a clear way directories are made** unless a name cannot be. -/
theorem ensureDirectory_clear (hvalid : validateRelative path = .ok ())
    (hroot : ∃ device, tree.entry root = some (.directory device))
    (hclear : Clear tree root (names path)) :
    FailsOnly Refused (ensureDirectory root path) tree := by
  obtain ⟨heq, hnames⟩ := pathComponents_of_valid hvalid
  refine FailsOnly.bind (failsOnly_of_ok (reads_eq_ok.mpr ⟨rfl, hvalid⟩)) fun _ tree₁ hreads => ?_
  obtain ⟨rfl, -⟩ := reads_eq_ok.mp hreads
  have hopen : openDirectory root [46] tree = .ok root := openDirectory_current.mpr ⟨rfl, hroot⟩
  refine FailsOnly.bind (failsOnly_of_ok (reads_eq_ok.mpr ⟨rfl, hopen⟩))
    fun current tree₁ hreads => ?_
  obtain ⟨rfl, hopen'⟩ := reads_eq_ok.mp hreads
  obtain rfl := Except.ok.inj (hopen.symm.trans hopen')
  rw [heq]
  exact descend_clear hnames hroot hclear

end

/-! ### Into an empty namespace -/

section

variable {materializer : HardlinkMaterializer} {tree tree' : Tree}
  {namespaceDirectory directory : Place} {name : Name} {link : PlannedLink}
  {links : List PlannedLink} {metadata : Metadata}

/-- An error that is not a clash of destinations: no destination is taken, no directory is anything
else, and a path is unsafe only where it is the path of a source. -/
structure NoClash (links : List PlannedLink) (error : MaterializeError) : Prop where
  conflict : error ≠ .linkConflict
  destination : ∀ errno, error ≠ .openDestination errno
  directory : ∀ errno, error ≠ .openDirectory errno
  create : ∀ errno, error = .createDirectory errno → errno = .inval ∨ errno = .nametoolong
  source : error = .unsafeRelativePath → ∃ link ∈ links,
    validateRelative link.sourceRelative ≠ .ok ()

theorem noClash_of_refused {error : MaterializeError} (h : Refused error) :
    NoClash links error := by
  rcases h with rfl | rfl <;> constructor <;> simp

theorem NoClash.mono {links' : List PlannedLink} {error : MaterializeError}
    (h : NoClash links error) (hsub : ∀ link ∈ links, link ∈ links') : NoClash links' error where
  conflict := h.conflict
  destination := h.destination
  directory := h.directory
  create := h.create
  source herror := by
    obtain ⟨link, hmem, hlink⟩ := h.source herror
    exact ⟨link, hsub link hmem, hlink⟩

theorem validateRelative_cases (path : PathBuf) :
    validateRelative path = .ok () ∨ validateRelative path = .error .unsafeRelativePath := by
  unfold validateRelative
  split_ifs
  · exact .inr rfl
  · exact .inl rfl

theorem inspectSource_noClash (hdestination : validateRelative link.destinationRelative = .ok ())
    (hmem : link ∈ links) :
      FailsOnly (NoClash links) (reads (inspectSource materializer link)) tree := by
  intro error herror
  change inspectSource materializer link tree = .error error at herror
  unfold inspectSource at herror
  rcases validateRelative_cases link.sourceRelative with hsource | hsource
  · rw [hsource, hdestination] at herror
    dsimp only [bind, Except.bind] at herror
    split at herror
    · obtain rfl := Except.error.inj herror
      constructor <;> simp
    · split at herror
      · obtain rfl := Except.error.inj herror
        constructor <;> simp
      · split_ifs at herror <;> obtain rfl := Except.error.inj herror <;> constructor <;> simp
      · obtain rfl := Except.error.inj herror
        constructor <;> simp
    · obtain rfl := Except.error.inj herror
      constructor <;> simp
  · rw [hsource] at herror
    obtain rfl := Except.error.inj herror
    constructor <;> simp
    exact ⟨link, hmem, by rw [hsource]; simp⟩

/-- Linking a file where nothing is. -/
theorem linkSource_free {destination : PathBuf} (hname : Normal 47 46 name)
    (hdirectory : ∃ device, tree.entry directory = some (.directory device))
    (hfree : tree.entry (directory ++ [name]) = none) :
    FailsOnly (NoClash links) (linkSource destination metadata directory name) tree := by
  obtain ⟨device, hdirectory⟩ := hdirectory
  rcases hlink : tree.linkat metadata.device metadata.inode directory name with errno | tree₁
  · have hrun : linkSource destination metadata directory name tree =
        (.error (.createLink errno), tree) := by
      have hexist : errno ≠ .exist := by
        rintro rfl
        rcases Tree.create_eq_error hdirectory hfree hlink with ⟨hvalid, herrno⟩ | hmake
        · rcases nameErrno_normal hname hvalid with h | h <;> rw [h] at herrno <;> cases herrno
        · split_ifs at hmake
          cases hmake
      unfold linkSource
      cases errno <;> simp_all
    refine failsOnly_of_error hrun ?_
    constructor <;> simp
  · have hrun : linkSource destination metadata directory name tree
        = (.ok ⟨destination, metadata.device, metadata.inode, metadata.size, false⟩, tree₁) := by
      simp [linkSource, hlink]
    exact failsOnly_of_ok hrun

/-- What is below a directory: the links made so far, and the directories above them. -/
structure Occupied (namespaceDirectory : Place) (done : List (List Name)) (tree : Tree) : Prop where
  root : ∃ device, tree.entry namespaceDirectory = some (.directory device)
  below : ∀ rest entry, rest ≠ [] → tree.entry (namespaceDirectory ++ rest) = some entry →
    rest ∈ done ∨ (∃ device, entry = .directory device) ∧ ∃ names ∈ done, rest <+: names

/-- Neither of two places is on the way to the other. -/
def Apart (names names' : List Name) : Prop := ¬ names <+: names' ∧ ¬ names' <+: names

/-- The parent of a plain path: the namespace, or a directory on a plain path. -/
theorem ensureParent_plain {destination : PathBuf} (hplain : Plain 47 46 destination) :
    ∃ name, Normal 47 46 name ∧ fileName 47 46 destination = some name
      ∧ (names destination = [name] ∧ (∀ root, ensureParent root destination = pure root)
        ∨ ∃ path, Plain 47 46 path ∧ names destination = names path ++ [name]
          ∧ ∀ root, ensureParent root destination = ensureDirectory root path) := by
  rcases hplain.cases with hname | ⟨front, name, rfl, hfront, hname⟩
  · have hfile := (fileName_append hname (.inl rfl)).1
    rw [List.nil_append] at hfile
    refine ⟨destination, hname, hfile, .inl ⟨?_, fun root => ?_⟩⟩
    · rw [names, hplain.components, List.splitOn_eq_singleton hname.separator]
    · rw [ensureParent, parent_name hname]
      rfl
  · have hfile : fileName 47 46 (front ++ [47] ++ name) = some name :=
      (fileName_append hname (.inr (by simp))).1
    rw [List.append_assoc, List.singleton_append] at hfile
    refine ⟨name, hname, hfile, .inr ⟨front, hfront, ?_, fun root => ?_⟩⟩
    · rw [names, names, hplain.components, hfront.components, List.splitOn_append_cons_self,
        List.splitOn_eq_singleton hname.separator]
    · rw [ensureParent, parent_plain hplain hfront hname, Option.filter_some,
        if_pos (by simpa using hfront.nonempty)]

theorem validateRelative_plain {path : PathBuf} (h : Plain 47 46 path) :
    validateRelative path = .ok () := by
  refine validateRelative_eq_ok.mpr ⟨h.nonempty, h.relative, fun component hmem => ?_⟩
  rw [h.pathComponents] at hmem
  obtain ⟨name, -, rfl⟩ := List.mem_map.mp hmem
  exact ⟨name, rfl⟩

variable {done : List (List Name)}

/-- The way to a new link is clear. -/
theorem Occupied.clear (h : Occupied namespaceDirectory done tree) {names : List Name}
    (hapart : ∀ names' ∈ done, Apart names names') {front : List Name} (hfront : front <+: names) :
    Clear tree namespaceDirectory front := by
  intro rest hrest entry hentry
  by_cases hempty : rest = []
  · subst hempty
    obtain ⟨device, hdevice⟩ := h.root
    rw [List.append_nil, hdevice] at hentry
    exact ⟨device, (Option.some.inj hentry).symm⟩
  · rcases h.below rest entry hempty hentry with hmem | ⟨hdirectory, -⟩
    · exact absurd (hrest.trans hfront) (hapart rest hmem).2
    · exact hdirectory

/-- The place of a new link is free. -/
theorem Occupied.free (h : Occupied namespaceDirectory done tree) {names : List Name}
    (hnames : names ≠ []) (hapart : ∀ names' ∈ done, Apart names names') :
      tree.entry (namespaceDirectory ++ names) = none := by
  by_contra hsome
  obtain ⟨entry, hentry⟩ := Option.ne_none_iff_exists'.mp hsome
  rcases h.below names entry hnames hentry with hmem | ⟨-, names', hmem, hstart⟩
  · exact (hapart names hmem).1 (List.prefix_refl names)
  · exact (hapart names' hmem).1 hstart

/-- The directory of a new link is made, and the link is not there yet. -/
theorem ensureParent_occupied (h : Occupied namespaceDirectory done tree)
    (hplain : Plain 47 46 link.destinationRelative)
    (hapart : ∀ names' ∈ done, Apart (names link.destinationRelative) names') :
    FailsOnly Refused (ensureParent namespaceDirectory link.destinationRelative) tree
      ∧ ∀ directory tree₁,
        ensureParent namespaceDirectory link.destinationRelative tree = (.ok directory, tree₁) →
          (∃ device, tree₁.entry directory = some (.directory device))
          ∧ tree₁.entry (namespaceDirectory ++ names link.destinationRelative) = none := by
  obtain ⟨name, hname, hfile, ⟨hnames, hparent⟩ | ⟨path, hpath, hnames, hparent⟩⟩ :=
    ensureParent_plain hplain
  · rw [hparent]
    refine ⟨failsOnly_of_ok rfl, fun directory tree₁ hrun => ?_⟩
    obtain ⟨hdirectory, rfl⟩ := Prod.mk.inj hrun
    obtain rfl := Except.ok.inj hdirectory
    exact ⟨h.root, h.free (by simp [hnames]) hapart⟩
  · rw [hparent]
    have hfront : names path <+: names link.destinationRelative := hnames ▸ List.prefix_append ..
    refine ⟨ensureDirectory_clear (validateRelative_plain hpath) h.root (h.clear hapart hfront),
      fun directory tree₁ hrun => ?_⟩
    obtain ⟨-, -, hdirectory⟩ := ensureDirectory_eq_ok hrun
    refine ⟨hdirectory, ?_⟩
    by_contra hsome
    obtain ⟨entry, hentry⟩ := Option.ne_none_iff_exists'.mp hsome
    obtain ⟨-, -, hway⟩ := ((keeps_ensureDirectory _ _).of_ok hrun).adds
      (h.free (by simp [hnames]) hapart) hentry
    have hlength := ((List.prefix_append_right_inj _).mp hway).length_le
    rw [hnames, List.length_append, List.length_singleton] at hlength
    omega

/-- **One more link**: it does not clash, and then it is below the namespace. -/
theorem materializeOne_occupied (materializer : HardlinkMaterializer)
    (h : Occupied namespaceDirectory done tree) (hplain : Plain 47 46 link.destinationRelative)
    (hapart : ∀ names' ∈ done, Apart (names link.destinationRelative) names')
    (hmem : link ∈ links) :
    FailsOnly (NoClash links) (materializeOne materializer namespaceDirectory link) tree
      ∧ ∀ linked tree', materializeOne materializer namespaceDirectory link tree =
        (.ok linked, tree') →
        Occupied namespaceDirectory (names link.destinationRelative :: done) tree' := by
  constructor
  · refine FailsOnly.bind (inspectSource_noClash (validateRelative_plain hplain) hmem)
      fun metadata _ hreads => ?_
    obtain ⟨rfl, -⟩ := reads_eq_ok.mp hreads
    obtain ⟨hfails, hready⟩ := ensureParent_occupied h hplain hapart
    refine FailsOnly.bind (hfails.mono fun _ => noClash_of_refused)
      fun directory tree₁ hparent => ?_
    obtain ⟨hdirectory, hfree⟩ := hready directory tree₁ hparent
    obtain ⟨name, hname, hfile, -⟩ := ensureParent_plain hplain
    refine FailsOnly.bind (failsOnly_of_ok (reads_eq_ok.mpr ⟨rfl, destinationName_eq_ok.mpr hfile⟩))
      fun name' _ hreads => ?_
    obtain ⟨rfl, hname'⟩ := reads_eq_ok.mp hreads
    obtain rfl := Option.some.inj (hfile.symm.trans (destinationName_eq_ok.mp hname'))
    exact linkSource_free hname hdirectory (by rw [ensureParent_eq_ok hfile hparent, hfree])
  · intro linked tree' hrun
    have hgrows := (keeps_materializeOne materializer namespaceDirectory link).of_ok hrun
    obtain ⟨device, hdevice⟩ := h.root
    refine ⟨⟨device, hgrows.keeps hdevice⟩, fun rest entry hrest hentry => ?_⟩
    rcases hold : tree.entry (namespaceDirectory ++ rest) with _ | entry'
    · rcases hgrows.adds hold hentry with ⟨hdirectory, -, hway⟩ | ⟨hplace, -⟩
      · exact .inr ⟨hdirectory, _, by simp, (List.prefix_append_right_inj _).mp hway⟩
      · exact .inl (by simp [List.append_cancel_left hplace])
    · obtain rfl := Option.some.inj ((hgrows.keeps hold).symm.trans hentry)
      rcases h.below rest entry' hrest hold with hdone | ⟨hdirectory, names', hdone, hstart⟩
      · exact .inl (by simp [hdone])
      · exact .inr ⟨hdirectory, names', by simp [hdone], hstart⟩

theorem mapM_occupied : ∀ {links' : List PlannedLink} {done : List (List Name)} {tree : Tree},
    Occupied namespaceDirectory done tree → (∀ link ∈ links', link ∈ links) →
      (∀ link ∈ links', Plain 47 46 link.destinationRelative) →
      (links'.map fun link => names link.destinationRelative).Pairwise Apart →
      (∀ link ∈ links', ∀ names' ∈ done, Apart (names link.destinationRelative) names') →
        FailsOnly (NoClash links)
          (links'.mapM (materializeOne materializer namespaceDirectory) :
            Managed (List MaterializedLink)) tree
  | [], _, _, _, _, _, _, _ => failsOnly_of_ok rfl
  | link :: links', done, tree, h, hsub, hplain, hpairwise, hapart => by
    rw [List.map_cons, List.pairwise_cons] at hpairwise
    obtain ⟨hfails, hnext⟩ := materializeOne_occupied materializer h
      (hplain link (by simp)) (hapart link (by simp)) (hsub link (by simp))
    rw [List.mapM_cons]
    refine FailsOnly.bind hfails fun linked tree₁ hrun => ?_
    refine FailsOnly.bind (mapM_occupied (hnext linked tree₁ hrun) (fun l hl =>
      hsub l (by simp [hl]))
      (fun l hl => hplain l (by simp [hl])) hpairwise.2 fun l hl names' hnames' => ?_)
      fun _ _ _ => failsOnly_of_ok rfl
    rcases List.mem_cons.mp hnames' with rfl | hdone
    · have := hpairwise.1 _ (List.mem_map_of_mem hl)
      exact ⟨this.2, this.1⟩
    · exact hapart l (by simp [hl]) names' hdone

/-- A namespace in which nothing is, which may not be there itself. -/
structure EmptyNamespace (materializer : HardlinkMaterializer)
    (namespaceRelative : PathBuf) (tree : Tree) : Prop where
  valid : validateRelative namespaceRelative = .ok ()
  root : ∃ device, tree.entry materializer.linkRoot = some (.directory device)
  way : Clear tree materializer.linkRoot (names namespaceRelative)
  empty : ∀ rest, rest ≠ [] →
    tree.entry (materializer.linkRoot ++ names namespaceRelative ++ rest) = none

/-- **Paths that are apart do not clash** in an empty namespace. -/
theorem materialize_noClash {namespaceRelative : PathBuf}
    (hnamespace : EmptyNamespace materializer namespaceRelative tree)
    (hplain : ∀ link ∈ links, Plain 47 46 link.destinationRelative)
    (hpairwise : (links.map fun link => names link.destinationRelative).Pairwise Apart) :
    FailsOnly (NoClash links) (materialize materializer namespaceRelative links) tree := by
  have hfails := ensureDirectory_clear hnamespace.valid hnamespace.root hnamespace.way
  refine FailsOnly.bind (hfails.mono fun _ => noClash_of_refused) fun place tree₁ hrun => ?_
  obtain ⟨-, rfl, hdirectory⟩ := ensureDirectory_eq_ok hrun
  have hoccupied : Occupied (materializer.linkRoot ++ names namespaceRelative) [] tree₁ := by
    refine ⟨hdirectory, fun rest entry hrest hentry => ?_⟩
    obtain ⟨-, -, hway⟩ :=
      ((keeps_ensureDirectory _ _).of_ok hrun).adds (hnamespace.empty rest hrest) hentry
    have hlength := hway.length_le
    rw [List.length_append] at hlength
    exact absurd (List.length_eq_zero_iff.mp (by omega)) hrest
  exact mapM_occupied hoccupied (fun _ h => h) hplain hpairwise (by simp)

end

/-! ### The paths of a match -/

section

open Sporos.Model.Matching Sporos.Matcher.Release Sporos.Matcher.Files Sporos.Matcher.Evaluate
open Sporos.Matcher.Invariance Sporos.Matcher.Soundness

variable {U : Unicode} {request : MatchRequest}

/-- Two texts that are split alike are one. -/
theorem components_injective : Function.Injective Matcher.Files.components := by
  intro path path' h
  have hjoin : ∀ text : Str, ['/'].intercalate (Matcher.Files.components text) = text :=
    fun text => List.intercalate_splitOn '/'
  rw [← hjoin path, h, hjoin path']

theorem plain_of_safe {path : Str} (h : unsafePath U path = false) : Plain 47 46 (bytes path) := by
  intro component hmem
  have hsep := sep_notMem_of_mem_splitOn hmem
  have hsplit : (bytes path).splitOn 47 = (Matcher.Files.components path).map bytes :=
    splitOn_utf8 path
  rw [hsplit] at hmem
  obtain ⟨text, htext, rfl⟩ := List.mem_map.mp hmem
  simp only [unsafePath, Bool.or_eq_false_iff, List.any_eq_false] at h
  have hsafe := h.2 text htext
  have hne : ∀ other : Str, text ≠ other → bytes text ≠ bytes other :=
    fun other hother heq => hother (utf8_injective heq)
  simp only [isDots, Bool.or_eq_true, decide_eq_true_eq, List.isEmpty_iff, not_or] at hsafe
  obtain ⟨⟨hempty, hdot, hdots⟩, -⟩ := hsafe
  have hbytes : bytes ['.'] = [46] ∧ bytes ['.', '.'] = [46, 46] := by decide
  exact ⟨hne [] hempty, hsep, hbytes.1 ▸ hne ['.'] hdot, hbytes.2 ▸ hne ['.', '.'] hdots⟩

theorem names_bytes {path : Str} (h : unsafePath U path = false) :
    names (bytes path) = (Matcher.Files.components path).map bytes := by
  rw [names, (plain_of_safe h).components]
  exact splitOn_utf8 path

/-- The mappings of a match are of files of the candidate, one for each. -/
theorem matched_files (h : (evaluate U request).outcome = .matched) :
    (∀ m ∈ (evaluate U request).mappings, ∃ file ∈ request.candidate.files,
        m.candidateOrdinal = file.ordinal ∧ m.candidatePath = file.path)
      ∧ ((evaluate U request).mappings.map FileMapping.candidateOrdinal).Nodup := by
  have hordinals := nodup_candidateFiles (evaluate_matched h).1.accepted
  rcases evaluate_matched_source h with ⟨source, -, -, -, he⟩ | ⟨-, he⟩
  · obtain ⟨pairs, mode, hassign, -, heq⟩ := evaluateSource_decision he
    rw [heq]
    refine ⟨fun m hm => ?_, nodup_ordinals hordinals hassign⟩
    obtain ⟨file, -, hfile, -, hordinal, hpath, -⟩ := mapping_score hassign hm
    exact ⟨file, (mem_candidateFiles.mp hfile).1, hordinal, hpath⟩
  · obtain ⟨pairs, hassign, -, n, heq⟩ := evaluateSeason_decision he
    rw [heq]
    refine ⟨fun m hm => ?_, nodup_ordinals hordinals hassign⟩
    obtain ⟨file, -, hfile, -, hordinal, hpath, -⟩ := mapping_score hassign hm
    exact ⟨file, (mem_candidateFiles.mp hfile).1, hordinal, hpath⟩

/-- Normalisation acts on what is between the separators. -/
def ComponentWise (U : Unicode) : Prop :=
  ∀ path, Matcher.Files.components (U.nfc path) = (Matcher.Files.components path).map U.nfc

/-- **No accepted path is a directory of another one**: the components that come first in another
path are all of its components. -/
theorem Accepted.path_eq_of_start (hnfc : ComponentWise U) {files : List TorrentFile}
    (h : Accepted U files) {file file' : TorrentFile} (hfile : file ∈ files)
    (hfile' : file' ∈ files)
    (hstart : Matcher.Files.components file.path <+: Matcher.Files.components file'.path) :
    file.path = file'.path := by
  obtain ⟨rest, hrest⟩ := hstart
  by_cases hempty : rest = []
  · rw [hempty, List.append_nil] at hrest
    exact components_injective hrest
  · have hpos : 0 < (Matcher.Files.components file.path).length :=
      List.length_pos_iff.mpr (List.splitOn_ne_nil _ _)
    have hrestpos : 0 < rest.length := List.length_pos_iff.mpr hempty
    have hcomponents : Matcher.Files.components (U.nfc file'.path)
        = Matcher.Files.components (U.nfc file.path) ++ rest.map U.nfc := by
      rw [hnfc, hnfc, ← List.map_append, hrest]
    have hlength : (Matcher.Files.components (U.nfc file.path)).length
        = (Matcher.Files.components file.path).length := by rw [hnfc, List.length_map]
    have hjoin : ['/'].intercalate (Matcher.Files.components (U.nfc file.path)) = U.nfc file.path :=
      List.intercalate_splitOn '/'
    have hdirectory : directoryAmong (files.map fun file =>
        U.nfc file.path) (U.nfc file'.path) = true := by
      refine List.any_eq_true.mpr ⟨(Matcher.Files.components file.path).length - 1, ?_, ?_⟩
      · rw [List.mem_range, hcomponents, List.length_append, hlength]
        omega
      · rw [Nat.sub_add_cancel hpos, hcomponents, ← hlength, List.take_left, hjoin,
          Bool.and_eq_true, decide_eq_true_eq, decide_eq_true_eq,
          List.length_append, List.length_map]
        exact ⟨by omega, List.mem_map_of_mem hfile⟩
    rw [h.directories file' hfile'] at hdirectory
    cases hdirectory

/-- Mappings of which one path starts the other are one. -/
theorem mapping_eq_of_start (hnfc : ComponentWise U) (h : (evaluate U request).outcome = .matched)
    {m m' : FileMapping} (hm : m ∈ (evaluate U request).mappings)
    (hm' : m' ∈ (evaluate U request).mappings)
    (hstart : names (bytes m.candidatePath) <+: names (bytes m'.candidatePath)) : m = m' := by
  have haccepted := (evaluate_matched h).1.accepted
  obtain ⟨hfiles, hnodup⟩ := matched_files h
  obtain ⟨file, hfile, hordinal, hpath⟩ := hfiles m hm
  obtain ⟨file', hfile', hordinal', hpath'⟩ := hfiles m' hm'
  rw [hpath, hpath', names_bytes (haccepted.safe file hfile),
    names_bytes (haccepted.safe file' hfile')] at hstart
  have hcomponents := (List.prefix_map_iff_of_injective utf8_injective).mp hstart
  have hsame := Accepted.path_eq_of_start hnfc haccepted hfile hfile' hcomponents
  obtain rfl : file = file' :=
    List.inj_on_of_nodup_map haccepted.paths hfile hfile' (congrArg U.nfc hsame)
  exact List.inj_on_of_nodup_map hnodup hm hm' (hordinal.trans hordinal'.symm)

theorem pairwise_apart (hnfc : ComponentWise U) (h : (evaluate U request).outcome = .matched) :
    ((evaluate U request).mappings.map fun m => names (bytes m.candidatePath)).Pairwise Apart := by
  rw [List.pairwise_map]
  refine (matched_files h).2.of_map.pairwise_of_forall_ne fun m hm m' hm' hne =>
    ⟨fun hstart => ?_, fun hstart => ?_⟩
  · exact hne (mapping_eq_of_start hnfc h hm hm' hstart)
  · exact hne (mapping_eq_of_start hnfc h hm' hm hstart).symm

theorem matched_plain (h : (evaluate U request).outcome = .matched) {m : FileMapping}
    (hm : m ∈ (evaluate U request).mappings) : Plain 47 46 (bytes m.candidatePath) := by
  obtain ⟨file, hfile, -, hpath⟩ := (matched_files h).1 m hm
  rw [hpath]
  exact plain_of_safe ((evaluate_matched h).1.accepted.safe file hfile)

/-- **The paths of a match never clash when they are linked.** All of them are safe for the
materialiser, they are different, and none of them is a directory of another one; linking them into
an empty namespace, in any order and from any sources, meets no destination that is taken, no file
where a directory is needed and no unsafe path but one of a source. -/
theorem matched_paths_link (U : Unicode) (request : MatchRequest) (hnfc : ComponentWise U)
    (h : (evaluate U request).outcome = .matched) :
    (∀ m ∈ (evaluate U request).mappings, validateRelative (bytes m.candidatePath) = .ok ())
      ∧ ((evaluate U request).mappings.map FileMapping.candidatePath).Nodup
      ∧ (∀ m ∈ (evaluate U request).mappings, ∀ m' ∈ (evaluate U request).mappings,
          names (bytes m.candidatePath) <+: names (bytes m'.candidatePath) →
            names (bytes m.candidatePath) = names (bytes m'.candidatePath))
      ∧ ∀ (materializer : HardlinkMaterializer) (namespaceRelative : PathBuf)
        (links : List PlannedLink)
          (tree : Tree),
          (links.map PlannedLink.destinationRelative).Perm
            ((evaluate U request).mappings.map fun m => bytes m.candidatePath) →
          EmptyNamespace materializer namespaceRelative tree →
            FailsOnly (NoClash links) (materialize materializer namespaceRelative links) tree := by
  refine ⟨fun m hm => validateRelative_plain (matched_plain h hm), ?_,
    fun m hm m' hm' hstart => ?_, ?_⟩
  · refine (matched_files h).2.of_map.map_on fun m hm m' hm' hpath => ?_
    exact mapping_eq_of_start hnfc h hm hm' (by rw [hpath])
  · rw [mapping_eq_of_start hnfc h hm hm' hstart]
  · intro materializer namespaceRelative links tree hperm hnamespace
    have hpaths : (links.map fun link => names link.destinationRelative).Perm
        ((evaluate U request).mappings.map fun m => names (bytes m.candidatePath)) := by
      simpa [List.map_map, Function.comp_def] using hperm.map names
    refine materialize_noClash hnamespace (fun link hlink => ?_) ?_
    · obtain ⟨m, hm, hpath⟩ := List.mem_map.mp (hperm.mem_iff.mp (List.mem_map_of_mem hlink))
      rw [← hpath]
      exact matched_plain h hm
    · exact (hpaths.pairwise_iff fun hapart => ⟨hapart.2, hapart.1⟩).mpr (pairwise_apart hnfc h)

/-- A file system with the two files of a film. -/
def filmTree : Tree :=
  { (bareTree.insert [] (bytes "Film.2020.mkv".toList) (.regular 1 7) ⟨1,
    rfl⟩ (by decide +kernel) rfl).insert []
      (bytes "Film.2020.nfo".toList) (.regular 1 8) ⟨1,
        rfl⟩ (by decide +kernel) (by decide +kernel) with
    content := fun _ inode => List.replicate (if inode = 7 then 10 else 3) 0 }

/-- The links of a film from the root of the file system. -/
def filmLinks : List PlannedLink :=
  (evaluate Unicode.ascii filmRequest).mappings.map fun m =>
    ⟨[47], bytes m.sourcePath, bytes m.candidatePath, m.size, none, none⟩

theorem entry_filmTree (rest : Place) : filmTree.entry ([97, 98] :: rest) = none := by
  have hvideo : [97, 98] ≠ bytes "Film.2020.mkv".toList := by decide +kernel
  have hinfo : [97, 98] ≠ bytes "Film.2020.nfo".toList := by decide +kernel
  have hne : ∀ name : Name, [97, 98] ≠ name → [97, 98] :: rest ≠ [] ++ [name] :=
      fun name hname heq =>
    hname (List.cons.inj heq).1
  unfold filmTree Tree.insert
  dsimp only
  rw [if_neg (hne _ hinfo), if_neg (hne _ hvideo)]
  simp [bareTree]

theorem emptyNamespace_filmTree : EmptyNamespace ⟨[], 1⟩ [97, 98, 47, 99] filmTree where
  valid := by decide +kernel
  root := ⟨1, by decide +kernel⟩
  way front hfront entry h := by
    have hnames : names [97, 98, 47, 99] = [[97, 98], [99]] := by decide +kernel
    rw [hnames] at hfront
    cases front with
    | nil => exact ⟨1, Option.some.inj (h.symm.trans (by decide +kernel))⟩
    | cons name front =>
      obtain ⟨rfl, -⟩ := List.cons_prefix_cons.mp hfront
      rw [List.nil_append, entry_filmTree] at h
      cases h
  empty rest hrest := by
    have hnames : names [97, 98, 47, 99] = [[97, 98], [99]] := by decide +kernel
    rw [hnames]
    exact entry_filmTree _

/-- A film is linked from its two files, into a namespace that is not there yet. -/
theorem matched_paths_link_film :
    ComponentWise Unicode.ascii ∧ (evaluate Unicode.ascii filmRequest).outcome = .matched
      ∧ filmLinks.length = 2
      ∧ (materialize ⟨[], 1⟩ [97, 98, 47, 99] filmLinks filmTree).1.isOk = true
      ∧ FailsOnly (NoClash filmLinks) (materialize ⟨[], 1⟩ [97, 98, 47,
        99] filmLinks) filmTree := by
  have hnfc : ComponentWise Unicode.ascii := by
    intro path
    exact (List.map_id _).symm
  have hmatched : (evaluate Unicode.ascii filmRequest).outcome = .matched := by decide +kernel
  refine ⟨hnfc, hmatched, by decide +kernel, by decide +kernel, ?_⟩
  refine (matched_paths_link Unicode.ascii filmRequest hnfc hmatched).2.2.2 _ _ _ _ ?_
    emptyNamespace_filmTree
  rw [filmLinks, List.map_map]
  exact List.Perm.refl _

end

end Sporos.Service.AcceptedPaths
