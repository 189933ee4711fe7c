import Mathlib.Algebra.BigOperators.Group.Finset.Basic
import Mathlib.Algebra.Order.BigOperators.Group.Finset
import Sporos.Lib.Paging

/-! # Traversals in pages

A tree of directories is traversed by visits. A visit reads the page of a directory that comes after
the cursor of its row. It adds a row for each directory to which an entry of the page leads, unless
there is one, and stores the next cursor, or completes the row with the last page. The rows may be
visited in any order. At every point the entries of a directory that have been read are those up to
its cursor (`Run.covers`), so that a traversal without a row to visit has read every entry of every
directory once (`Covers.finished`). -/

namespace Sporos.Lib.Traversal

open Sporos.Lib.Paging
open Sporos.Lib.Lists

variable {δ α κ : Type*}

/-- Directories, their entries with the keys that tell them apart, and the directories to which
entries lead. -/
structure Tree (δ α κ : Type*) where
  root : δ
  entries : δ → List α
  key : α → κ
  child : δ → α → Option δ
  nodup : ∀ directory, ((entries directory).map key).Nodup

/-- The directories to which entries lead from the root. -/
inductive Tree.Reaches (tree : Tree δ α κ) : δ → Prop where
  | root : tree.Reaches tree.root
  | child {directory child : δ} {a : α} (h : tree.Reaches directory)
    (ha : a ∈ tree.entries directory) (hchild : tree.child directory a = some child) :
    tree.Reaches child

/-- How far a directory has been read. -/
inductive Progress (κ : Type*) where
  | reading (cursor : Option κ)
  | completed
  deriving DecidableEq

/-- A page of a directory that has been read. -/
structure Visit (δ α κ : Type*) where
  directory : δ
  cursor : Option κ
  names : List α
  hasMore : Bool
  deriving DecidableEq

/-- The directories that are found from one in at most some number of steps. -/
def Tree.below (tree : Tree δ α κ) : ℕ → δ → List δ
  | 0, directory => [directory]
  | steps + 1, directory =>
    directory :: ((tree.entries directory).filterMap (tree.child directory)).flatMap
      (tree.below steps)

/-- Entries lead one level down, and not below the bound. -/
structure Tree.Bounded (tree : Tree δ α κ) (depth : δ → ℕ) (bound : ℕ) : Prop where
  root : depth tree.root = 0
  child : ∀ directory, ∀ a ∈ tree.entries directory, ∀ child, tree.child directory a = some child →
    depth directory < bound ∧ depth child = depth directory + 1

section

variable [LinearOrder κ]

/-- The visit has read the first entries after the cursor, and tells whether there are more. -/
structure Tree.Reads (tree : Tree δ α κ) (limit : ℕ) (visit : Visit δ α κ) : Prop where
  names : visit.names = page tree.key limit visit.cursor (tree.entries visit.directory)
  hasMore : visit.hasMore
    = decide (limit < (after tree.key visit.cursor (tree.entries visit.directory)).length)

/-- The row of a directory after a visit of it. -/
def Tree.next (tree : Tree δ α κ) (visit : Visit δ α κ) : Progress κ :=
  if visit.hasMore then .reading (visit.names.getLast?.map tree.key) else .completed

/-- Some entry of the visit leads to the directory. -/
def Tree.Finds (tree : Tree δ α κ) (visit : Visit δ α κ) (child : δ) : Prop :=
  ∃ a ∈ visit.names, tree.child visit.directory a = some child

/-- The rows after a visit. -/
structure Tree.Moves (tree : Tree δ α κ) (visit : Visit δ α κ)
    (rows rows' : δ → Option (Progress κ)) : Prop where
  self : rows' visit.directory = some (tree.next visit)
  kept : ∀ directory, directory ≠ visit.directory → rows directory ≠ none →
    rows' directory = rows directory
  found : ∀ directory, directory ≠ visit.directory → rows directory = none →
    tree.Finds visit directory →
    rows' directory = some (.reading none)
  absent : ∀ directory, directory ≠ visit.directory → rows directory = none →
    ¬ tree.Finds visit directory →
    rows' directory = none

/-- The rows that visits lead to, from a row for the root. -/
inductive Tree.Run (tree : Tree δ α κ) (limit : ℕ) : (δ → Option (Progress κ)) →
    List (Visit δ α κ) → Prop where
  | start {rows : δ → Option (Progress κ)} (hroot : rows tree.root = some (.reading none))
    (hnone : ∀ directory, directory ≠ tree.root → rows directory = none) : tree.Run limit rows []
  | visit {rows rows' : δ → Option (Progress κ)} {visits : List (Visit δ α κ)} {visit : Visit δ α κ}
    (h : tree.Run limit rows visits) (hrow : rows visit.directory = some (.reading visit.cursor))
    (hreads : tree.Reads limit visit) (hmoves : tree.Moves visit rows rows') : tree.Run limit rows'
      (visits ++ [visit])

end

/-! ### The directories of a tree -/

section

variable {tree : Tree δ α κ} {depth : δ → ℕ} {bound : ℕ}

theorem Tree.mem_below_self (tree : Tree δ α κ) : ∀ (steps : ℕ) (directory : δ),
    directory ∈ tree.below steps directory
  | 0, _ => List.mem_singleton.mpr rfl
  | _ + 1, _ => List.mem_cons_self

theorem Tree.Reaches.of_mem_below : ∀ {steps : ℕ} {directory found : δ}, tree.Reaches directory →
    found ∈ tree.below steps directory → tree.Reaches found
  | 0, _, _, hreaches, hfound => List.mem_singleton.mp hfound ▸ hreaches
  | steps + 1, directory, found, hreaches, hfound => by
    rcases List.mem_cons.mp hfound with rfl | hfound
    · exact hreaches
    · obtain ⟨child, hchild, hfound⟩ := List.mem_flatMap.mp hfound
      obtain ⟨a, ha, hchild⟩ := List.mem_filterMap.mp hchild
      exact (hreaches.child ha hchild).of_mem_below hfound

/-- Where steps are left, the directories to which entries lead are found too. -/
theorem Tree.Bounded.child_mem_below (h : tree.Bounded depth bound) {found child : δ} {a : α}
    (ha : a ∈ tree.entries found) (hchild : tree.child found a = some child) :
    ∀ {steps : ℕ} {directory : δ}, found ∈ tree.below steps directory →
      depth found < depth directory + steps →
      child ∈ tree.below steps directory
  | 0, directory, hfound, hdepth => by
    rw [List.mem_singleton.mp hfound] at hdepth
    omega
  | steps + 1, directory, hfound, hdepth => by
    refine List.mem_cons_of_mem _ (List.mem_flatMap.mpr ?_)
    rcases List.mem_cons.mp hfound with rfl | hfound
    · exact ⟨child, List.mem_filterMap.mpr ⟨a, ha, hchild⟩, tree.mem_below_self steps child⟩
    · obtain ⟨next, hnext, hfound⟩ := List.mem_flatMap.mp hfound
      obtain ⟨b, hb, hled⟩ := List.mem_filterMap.mp hnext
      have hlevel := (h.child directory b hb next hled).2
      exact ⟨next, hnext, h.child_mem_below ha hchild hfound (by omega)⟩

/-- **The directories of a tree.** -/
theorem Tree.Bounded.mem_below_iff (h : tree.Bounded depth bound) {directory : δ} :
    directory ∈ tree.below bound tree.root ↔ tree.Reaches directory := by
  refine ⟨Tree.Reaches.root.of_mem_below, fun hreaches => ?_⟩
  induction hreaches with
  | root => exact tree.mem_below_self _ _
  | child _ ha hchild ih =>
    refine h.child_mem_below ha hchild ih ?_
    have hdepth := (h.child _ _ ha _ hchild).1
    rw [h.root]
    omega

end

/-! ### What has been read -/

/-- The entries that have been read, with their directories. -/
def visited (visits : List (Visit δ α κ)) : List (δ × α) :=
  visits.flatMap fun visit => visit.names.map (Prod.mk visit.directory)

variable {visits : List (Visit δ α κ)} {visit : Visit δ α κ} {directory : δ} {a : α}

theorem visited_append :
    visited (visits ++ [visit]) = visited visits ++ visit.names.map (Prod.mk visit.directory) := by
  simp [visited]

section

variable [DecidableEq δ]

/-- The visits of a directory. -/
def visitsOf (visits : List (Visit δ α κ)) (directory : δ) : List (Visit δ α κ) :=
  visits.filter fun visit => visit.directory = directory

/-- The entries of a directory that have been read. -/
def namesAt (visits : List (Visit δ α κ)) (directory : δ) : List α :=
  (visitsOf visits directory).flatMap Visit.names

/-- The visits of a directory that have read its last page. -/
def lastPages (visits : List (Visit δ α κ)) (directory : δ) : ℕ :=
  (visitsOf visits directory).countP fun visit => !visit.hasMore

theorem visitsOf_append_self : visitsOf (visits ++ [visit]) visit.directory =
    visitsOf visits visit.directory ++ [visit] := by
  simp [visitsOf]

theorem visitsOf_append_of_ne (h : directory ≠ visit.directory) :
    visitsOf (visits ++ [visit]) directory = visitsOf visits directory := by
  simp [visitsOf, h.symm]

theorem namesAt_append_self :
    namesAt (visits ++ [visit]) visit.directory =
      namesAt visits visit.directory ++ visit.names := by
  simp [namesAt, visitsOf_append_self]

theorem namesAt_append_of_ne (h : directory ≠ visit.directory) :
    namesAt (visits ++ [visit]) directory = namesAt visits directory := by
  rw [namesAt, visitsOf_append_of_ne h, namesAt]

theorem lastPages_append_self :
    lastPages (visits ++ [visit]) visit.directory =
      lastPages visits visit.directory + if visit.hasMore then 0 else 1 := by
  rw [lastPages, visitsOf_append_self, List.countP_append, lastPages, List.countP_singleton]
  cases visit.hasMore <;> rfl

theorem lastPages_append_of_ne (h : directory ≠ visit.directory) :
    lastPages (visits ++ [visit]) directory = lastPages visits directory := by
  rw [lastPages, visitsOf_append_of_ne h, lastPages]

theorem mem_visited : (directory, a) ∈ visited visits ↔ a ∈ namesAt visits directory := by
  simp only [visited, namesAt, visitsOf, List.mem_flatMap, List.mem_map, List.mem_filter,
    decide_eq_true_eq, Prod.mk.injEq]
  constructor
  · rintro ⟨visit, hvisit, b, hb, rfl, rfl⟩
    exact ⟨visit, ⟨hvisit, rfl⟩, hb⟩
  · rintro ⟨visit, ⟨hvisit, rfl⟩, ha⟩
    exact ⟨visit, hvisit, a, ha, rfl, rfl⟩

end

/-! ### Invariant -/

section

variable {tree : Tree δ α κ} {limit : ℕ} {rows rows' : δ → Option (Progress κ)}
  {visits : List (Visit δ α κ)} {visit : Visit δ α κ} {directory : δ} {cursor : Option κ}

/-- A row after a visit of another directory: the one that was there, or that of a directory that
the visit finds. -/
theorem Tree.Moves.cases (hmoves : tree.Moves visit rows rows')
    (hne : directory ≠ visit.directory) :
    rows' directory = rows directory
      ∨ rows directory = none ∧ rows' directory = some (.reading none)
        ∧ tree.Finds visit directory := by
  by_cases hrow : rows directory = none
  · by_cases hfinds : tree.Finds visit directory
    · exact .inr ⟨hrow, hmoves.found directory hne hrow hfinds, hfinds⟩
    · exact .inl ((hmoves.absent directory hne hrow hfinds).trans hrow.symm)
  · exact .inl (hmoves.kept directory hne hrow)

theorem Tree.Moves.ne_none (hmoves : tree.Moves visit rows rows')
    (h : rows directory ≠ none ∨ tree.Finds visit directory) : rows' directory ≠ none := by
  by_cases hne : directory = visit.directory
  · subst hne
    simp [hmoves.self]
  · by_cases hrow : rows directory = none
    · simp [hmoves.found directory hne hrow (h.resolve_left (not_not.mpr hrow))]
    · rwa [hmoves.kept directory hne hrow]

/-- All rows are completed. -/
def Finished (rows : δ → Option (Progress κ)) : Prop :=
  ∀ directory cursor, rows directory ≠ some (.reading cursor)

theorem Finished.completed (h : Finished rows) (hrow : rows directory ≠ none) :
    rows directory = some .completed := by
  cases hprogress : rows directory with
  | none => exact absurd hprogress hrow
  | some progress =>
    cases progress with
    | reading cursor => exact absurd hprogress (h directory cursor)
    | completed => rfl

variable [LinearOrder κ]

/-- The next cursor is behind what has been read. -/
theorem Tree.Reads.next_reading (hreads : tree.Reads limit visit) (hlimit : 0 < limit)
    (h : tree.next visit = .reading cursor) :
    visit.hasMore = true ∧ before tree.key cursor (tree.entries visit.directory)
      = before tree.key visit.cursor (tree.entries visit.directory) ++ visit.names := by
  unfold Tree.next at h
  split_ifs at h with hmore
  obtain rfl := Progress.reading.inj h
  refine ⟨hmore, ?_⟩
  have hrest : limit < (after tree.key visit.cursor (tree.entries visit.directory)).length :=
    of_decide_eq_true (hreads.hasMore.symm.trans hmore)
  have hlength : visit.names.length = limit := by
    rw [hreads.names, length_page, min_eq_left hrest.le]
  obtain ⟨last, hlast⟩ : ∃ last, visit.names.getLast? = some last := by
    cases hnames : visit.names.getLast? with
    | none => simp [List.getLast?_eq_none_iff.mp hnames] at hlength; omega
    | some last => exact ⟨last, rfl⟩
  rw [hlast, Option.map_some, before_next (tree.nodup _) (hreads.names ▸ hlast), hreads.names]

/-- The last page completes what has been read. -/
theorem Tree.Reads.next_completed (hreads : tree.Reads limit visit)
    (h : tree.next visit = .completed) :
    visit.hasMore = false
      ∧ before tree.key visit.cursor (tree.entries visit.directory) ++ visit.names
      = (tree.entries visit.directory).insertionSort (ByKey tree.key) := by
  unfold Tree.next at h
  split_ifs at h with hmore
  have hmore : visit.hasMore = false := by simpa using hmore
  refine ⟨hmore, ?_⟩
  rw [hreads.names]
  exact before_append_page (tree.nodup _) (by simpa [hmore] using hreads.hasMore)

variable [DecidableEq δ]

/-- The rows tell what has been read. -/
structure Covers (tree : Tree δ α κ) (limit : ℕ) (rows : δ → Option (Progress κ))
    (visits : List (Visit δ α κ)) : Prop where
  reads : ∀ visit ∈ visits, tree.Reads limit visit
  root : rows tree.root ≠ none
  reaches : ∀ directory, rows directory ≠ none → tree.Reaches directory
  unvisited : ∀ directory, rows directory = none → visitsOf visits directory = []
  reading : ∀ directory cursor, rows directory = some (.reading cursor) →
    namesAt visits directory = before tree.key cursor (tree.entries directory)
      ∧ lastPages visits directory = 0
  completed : ∀ directory, rows directory = some .completed →
    namesAt visits directory = (tree.entries directory).insertionSort (ByKey tree.key)
      ∧ lastPages visits directory = 1
  children : ∀ directory, ∀ a ∈ namesAt visits directory, ∀ child,
    tree.child directory a = some child →
    rows child ≠ none
  nodup : (visited visits).Nodup

theorem Covers.start (hroot : rows tree.root = some (.reading none))
    (hnone : ∀ directory, directory ≠ tree.root → rows directory = none) :
      Covers tree limit rows [] where
  reads := by simp
  root := by simp [hroot]
  reaches := by
    intro directory hrow
    by_cases h : directory = tree.root
    · exact h ▸ .root
    · exact absurd (hnone directory h) hrow
  unvisited := by simp [visitsOf]
  reading := by
    intro directory cursor hrow
    by_cases h : directory = tree.root
    · subst h
      obtain rfl : none = cursor := by simpa [hroot] using hrow
      simp [namesAt, visitsOf, lastPages]
    · rw [hnone directory h] at hrow
      cases hrow
  completed := by
    intro directory hrow
    by_cases h : directory = tree.root
    · subst h
      rw [hroot] at hrow
      cases hrow
    · rw [hnone directory h] at hrow
      cases hrow
  children := by simp [namesAt, visitsOf]
  nodup := by simp [visited]

/-- **A visit.** -/
theorem Covers.step (h : Covers tree limit rows visits) (hlimit : 0 < limit)
    (hrow : rows visit.directory = some (.reading visit.cursor)) (hreads : tree.Reads limit visit)
    (hmoves : tree.Moves visit rows rows') : Covers tree limit rows' (visits ++ [visit]) := by
  obtain ⟨hnames, hlast⟩ := h.reading _ _ hrow
  have hentries : ∀ a ∈ visit.names, a ∈ tree.entries visit.directory := fun a ha =>
    (mem_after.mp (mem_of_mem_page (hreads.names ▸ ha))).1
  refine ⟨?_, hmoves.ne_none (.inl h.root), ?_, ?_, ?_, ?_, ?_, ?_⟩
  · intro other hother
    rcases List.mem_append.mp hother with hother | hother
    · exact h.reads other hother
    · exact List.mem_singleton.mp hother ▸ hreads
  · intro directory hsome
    by_cases hne : directory = visit.directory
    · exact hne ▸ h.reaches _ (by simp [hrow])
    · rcases hmoves.cases hne with hsame | ⟨-, -, a, ha, hchild⟩
      · exact h.reaches directory (hsame ▸ hsome)
      · exact .child (h.reaches visit.directory (by simp [hrow])) (hentries a ha) hchild
  · intro directory hnone
    have hne : directory ≠ visit.directory := by
      rintro rfl
      simp [hmoves.self] at hnone
    rw [visitsOf_append_of_ne hne]
    refine h.unvisited directory (not_not.mp fun hsome => ?_)
    exact hmoves.ne_none (.inl hsome) hnone
  · intro directory cursor hreading
    by_cases hne : directory = visit.directory
    · subst hne
      rw [hmoves.self] at hreading
      obtain ⟨hmore, hbefore⟩ := hreads.next_reading hlimit (Option.some_inj.mp hreading)
      rw [namesAt_append_self, hnames, hbefore, lastPages_append_self, hlast, hmore]
      exact ⟨rfl, rfl⟩
    · rw [namesAt_append_of_ne hne, lastPages_append_of_ne hne]
      rcases hmoves.cases hne with hsame | ⟨hnone, hfound, -⟩
      · exact h.reading directory cursor (hsame ▸ hreading)
      · obtain rfl : none = cursor := by simpa [hfound] using hreading
        simp [namesAt, lastPages, h.unvisited directory hnone]
  · intro directory hcompleted
    by_cases hne : directory = visit.directory
    · subst hne
      rw [hmoves.self] at hcompleted
      obtain ⟨hmore, hall⟩ := hreads.next_completed (Option.some_inj.mp hcompleted)
      rw [namesAt_append_self, hnames, hall, lastPages_append_self, hlast, hmore]
      exact ⟨rfl, rfl⟩
    · rw [namesAt_append_of_ne hne, lastPages_append_of_ne hne]
      rcases hmoves.cases hne with hsame | ⟨-, hfound, -⟩
      · exact h.completed directory (hsame ▸ hcompleted)
      · simp [hfound] at hcompleted
  · intro directory a ha child hchild
    by_cases hne : directory = visit.directory
    · subst hne
      rw [namesAt_append_self] at ha
      rcases List.mem_append.mp ha with ha | ha
      · exact hmoves.ne_none (.inl (h.children _ a ha child hchild))
      · exact hmoves.ne_none (.inr ⟨a, ha, hchild⟩)
    · rw [namesAt_append_of_ne hne] at ha
      exact hmoves.ne_none (.inl (h.children _ a ha child hchild))
  · -- What the page has is after the cursor, and what has been read is before it.
    have hpage : visit.names.Nodup := by
      rw [hreads.names]
      refine List.Nodup.of_map tree.key (nodup_take_insertionSort ?_ tree.key limit)
      exact (tree.nodup _).sublist ((after_sublist _ _).map tree.key)
    rw [visited_append]
    refine h.nodup.append (hpage.map (Prod.mk_right_injective _)) ?_
    intro pair hold hnew
    obtain ⟨a, ha, rfl⟩ := List.mem_map.mp hnew
    rw [mem_visited, hnames] at hold
    obtain ⟨-, c, hc, hle⟩ := mem_before.mp hold
    exact absurd ((mem_after.mp (mem_of_mem_page (hreads.names ▸ ha))).2 c hc) (not_lt.mpr hle)

/-- **What has been read** at every point of a traversal. -/
theorem Tree.Run.covers (hlimit : 0 < limit) (h : tree.Run limit rows visits) :
    Covers tree limit rows visits := by
  induction h with
  | start hroot hnone => exact .start hroot hnone
  | visit _ hrow hreads hmoves ih => exact ih.step hlimit hrow hreads hmoves

/-! ### The end -/

/-- **A traversal that is finished** has read all entries of all directories. -/
theorem Covers.finished (h : Covers tree limit rows visits) (hfinished : Finished rows)
    (hreaches : tree.Reaches directory) :
    namesAt visits directory = (tree.entries directory).insertionSort (ByKey tree.key)
      ∧ lastPages visits directory = 1 := by
  refine h.completed directory (hfinished.completed ?_)
  induction hreaches with
  | root => exact h.root
  | @child parent child a _ ha hchild ih =>
    refine h.children parent a ?_ child hchild
    rw [(h.completed parent (hfinished.completed ih)).1]
    exact (List.mem_insertionSort _).mpr ha

theorem Covers.reaches_of_mem (h : Covers tree limit rows visits) (hvisit : visit ∈ visits) :
    tree.Reaches visit.directory := by
  refine h.reaches _ fun hnone => ?_
  have hmem : visit ∈ visitsOf visits visit.directory := by simp [visitsOf, hvisit]
  simp [h.unvisited _ hnone] at hmem

theorem Covers.mem_entries (h : Covers tree limit rows visits) {a : α}
    (ha : (directory, a) ∈ visited visits) :
    tree.Reaches directory ∧ a ∈ tree.entries directory := by
  obtain ⟨visit, hvisit, hmem⟩ := List.mem_flatMap.mp ha
  obtain ⟨b, hb, heq⟩ := List.mem_map.mp hmem
  obtain ⟨rfl, rfl⟩ := Prod.mk.inj heq
  refine ⟨h.reaches_of_mem hvisit, ?_⟩
  rw [(h.reads visit hvisit).names] at hb
  exact (mem_after.mp (mem_of_mem_page hb)).1

/-- The entries that a finished traversal has read. -/
theorem Covers.mem_visited_iff (h : Covers tree limit rows visits)
    (hfinished : Finished rows) {a : α} :
    (directory, a) ∈ visited visits ↔ tree.Reaches directory ∧ a ∈ tree.entries directory := by
  refine ⟨h.mem_entries, fun ⟨hreaches, ha⟩ => ?_⟩
  rw [mem_visited, (h.finished hfinished hreaches).1]
  exact (List.mem_insertionSort _).mpr ha

/-! ### The number of visits -/

omit [DecidableEq δ] in
/-- Each page before the last one is full. -/
theorem length_full_le {pages : List (Visit δ α κ)}
    (hreads : ∀ visit ∈ pages, tree.Reads limit visit) :
    limit * (pages.countP fun visit => visit.hasMore) ≤ (pages.flatMap Visit.names).length := by
  induction pages with
  | nil => simp
  | cons visit pages ih =>
    have hrest := ih fun other hother => hreads other (List.mem_cons_of_mem visit hother)
    have hvisit := hreads visit (by simp)
    rw [List.flatMap_cons, List.length_append, List.countP_cons, Nat.mul_add]
    cases hmore : visit.hasMore with
    | false => simpa using hrest.trans (Nat.le_add_left _ _)
    | true =>
      have hlength : visit.names.length = limit := by
        rw [hvisit.names, length_page, min_eq_left]
        exact (of_decide_eq_true (hvisit.hasMore.symm.trans hmore)).le
      simp only [if_true, hlength]
      omega

theorem Covers.length_visitsOf_le (h : Covers tree limit rows visits) (hlimit : 0 < limit)
    (directory : δ) :
    (visitsOf visits directory).length ≤ (tree.entries directory).length / limit + 1 := by
  have hreads : ∀ visit ∈ visitsOf visits directory, tree.Reads limit visit := fun visit hvisit =>
    h.reads visit (List.mem_of_mem_filter hvisit)
  have hmore := length_full_le hreads
  have hsplit : (visitsOf visits directory).length = _ :=
    List.length_eq_countP_add_countP (fun visit : Visit δ α κ => visit.hasMore)
  have hlast : lastPages visits directory ≤ 1 ∧ (namesAt visits directory).length ≤
      (tree.entries directory).length := by
    cases hrow : rows directory with
    | none => simp [lastPages, namesAt, h.unvisited directory hrow]
    | some progress =>
      cases progress with
      | reading cursor =>
        obtain ⟨hnames, hlast⟩ := h.reading directory cursor hrow
        have hlength := length_before_add (tree.nodup directory) cursor
        rw [hnames, hlast]
        omega
      | completed =>
        obtain ⟨hnames, hlast⟩ := h.completed directory hrow
        simp [hnames, hlast]
  have hpages : (visitsOf visits directory).countP (fun visit => visit.hasMore)
      ≤ (tree.entries directory).length / limit :=
    (Nat.le_div_iff_mul_le hlimit).mpr (by rw [Nat.mul_comm]; exact hmore.trans hlast.2)
  have hrest : (visitsOf visits directory).countP (fun visit => decide ¬ visit.hasMore = true)
      = lastPages visits directory := by
    simp [lastPages]
  omega

/-- **The number of visits** of a traversal. -/
theorem Covers.length_le (h : Covers tree limit rows visits) (hlimit : 0 < limit)
    {directories : Finset δ}
    (hall : ∀ directory, tree.Reaches directory → directory ∈ directories) :
    visits.length ≤ ∑ directory ∈ directories, ((tree.entries directory).length / limit + 1) := by
  have hsubset : (visits.map Visit.directory).toFinset ⊆ directories := by
    intro directory hdirectory
    obtain ⟨visit, hvisit, rfl⟩ := List.mem_map.mp (List.mem_toFinset.mp hdirectory)
    exact hall _ (h.reaches_of_mem hvisit)
  calc visits.length = (visits.map Visit.directory).length := (List.length_map _).symm
    _ = ∑ directory ∈ (visits.map Visit.directory).toFinset,
        (visits.map Visit.directory).count directory :=
      (List.sum_toFinset_count_eq_length _).symm
    _ ≤ ∑ directory ∈ directories, (visits.map Visit.directory).count directory :=
      Finset.sum_le_sum_of_subset hsubset
    _ ≤ ∑ directory ∈ directories, ((tree.entries directory).length / limit + 1) := by
      refine Finset.sum_le_sum fun directory _ => ?_
      have hcount : (visits.map Visit.directory).count directory =
          (visitsOf visits directory).length := by
        rw [List.count, List.countP_map, visitsOf, ← List.countP_eq_length_filter]
        exact List.countP_congr fun visit _ => by simp
      rw [hcount]
      exact h.length_visitsOf_le hlimit directory

end

end Sporos.Lib.Traversal
