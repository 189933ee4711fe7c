import Sporos.Service.EvaluationReads
import Sporos.Service.ScanOnce

/-! # Files that stay

The row of a file has the source, the version and the ordinal of the file as its key, and the loads
and the scans write it in place. A version that has been published is not written again: a load
stages the files of a version above those of its torrent, and a scan stores a release once, with a
generation of its own. So the row of a published file says the same for ever, under the same
identifier (`keeps_run`). -/

namespace Sporos.Service.KeptFiles

open Sporos.Service.Tables
open Sporos.Service.Inventory
open Sporos.Service.Sources
open Sporos.Service.QbitProjection
open Sporos.Service.DataTree
open Sporos.Service.DataScan hiding Event Event.apply
open Sporos.Service.ScanSweeps (rowShown shown showEffect Stamps rowShown_step)
open Sporos.Service.ScanCoverage (persistedPaths persistedPaths_append)
open Sporos.Service.ScanOnce
open Sporos.Service.Publications
open Sporos.Service.PublicationRuns
open Sporos.Service.EvaluationReads (worldAt grows_run run_run)
open Sporos.Lib.Table
open Sporos.Lib.Loop

/-! ### Rows that stay -/

/-- The version of the source has been published. -/
def IsPublished (log : List Entry) (sourceId : Id) (version : ℕ) : Prop :=
  ∃ entry ∈ log, entry.sourceId = sourceId ∧ entry.version = version

/-- The rows stay under their keys and their identifiers, and those of a version that has been
published say what they said. -/
structure Keeps (log : List Entry) (files files' : List SourceFileRow) : Prop where
  rows : ∀ key row, lookup SourceFileRow.key files key = some row →
    ∃ row', lookup SourceFileRow.key files' key = some row' ∧ row'.id = row.id
      ∧ (IsPublished log key.1 key.2.1 → rowFile row' = rowFile row)
  ids : UniqueKey SourceFileRow.id files → UniqueKey SourceFileRow.id files'

section

variable {log log' : List Entry} {files files' files'' : List SourceFileRow}

theorem Keeps.refl (log : List Entry) (files : List SourceFileRow) : Keeps log files files :=
  ⟨fun _ row hrow => ⟨row, hrow, rfl, fun _ => rfl⟩, id⟩

theorem keeps_of_eq (h : files' = files) : Keeps log files files' := h ▸ .refl log files

theorem Keeps.trans (h : Keeps log files files') (h' : Keeps log files' files'') :
    Keeps log files files'' where
  rows key row hrow := by
    obtain ⟨row', hrow', hid, hsame⟩ := h.rows key row hrow
    obtain ⟨row'', hrow'', hid', hsame'⟩ := h'.rows key row' hrow'
    exact ⟨row'', hrow'', hid'.trans hid, fun hpublished =>
      (hsame' hpublished).trans (hsame hpublished)⟩
  ids := h'.ids ∘ h.ids

/-- What stays over a longer log stays over a part of it. -/
theorem Keeps.mono (h : Keeps log' files files') (hsub : log ⊆ log') : Keeps log files files' where
  rows key row hrow := by
    obtain ⟨row', hrow', hid, hsame⟩ := h.rows key row hrow
    exact ⟨row', hrow', hid, fun ⟨entry, hentry, hkey⟩ => hsame ⟨entry, hsub hentry, hkey⟩⟩
  ids := h.ids

theorem keeps_setAvailable (log : List Entry) (files : List SourceFileRow) (sourceId : Id)
    (p : SourceFileRow → Bool) (available : Bool) :
    Keeps log files (setAvailable files sourceId p available) where
  rows key row hrow := by
    rw [Manifest.lookup_setAvailable, hrow]
    refine ⟨_, rfl, ?_, fun _ => ?_⟩
    · dsimp only
      split_ifs <;> rfl
    · dsimp only
      split_ifs <;> rfl
  ids hunique := by
    refine UniqueKey.of_map_eq ?_ hunique
    rw [setAvailable, List.map_map]
    refine List.map_congr_left fun row _ => ?_
    rw [Function.comp_apply]
    split_ifs <;> rfl

/-- A loop keeps the rows, if every iteration does. -/
theorem keeps_foldl {β : Type} {f : List SourceFileRow → β → List SourceFileRow}
    (hf : ∀ before item, Keeps log before (f before item)) (items : List β)
    (before : List SourceFileRow) : Keeps log before (items.foldl f before) := by
  induction items generalizing before with
  | nil => exact .refl log before
  | cons item items ih => exact (hf before item).trans (ih _)

/-- The identifier of the next file is free. -/
theorem id_lt_nextFileId {row : SourceFileRow} (h : row ∈ files) : row.id < nextFileId files := by
  induction files with
  | nil => cases h
  | cons other files ih =>
    unfold nextFileId at ih ⊢
    rw [List.map_cons, List.foldr_cons]
    rcases List.mem_cons.mp h with rfl | hmem
    · omega
    · have := ih hmem
      omega

/-- An upsert of a file of a version that has not been published. -/
theorem keeps_upsertFile {row : SourceFileRow} {set : SourceFileRow → SourceFileRow}
    (hkey : ∀ old, (set old).key = old.key) (hid : ∀ old, (set old).id = old.id)
    (hfree : ¬ IsPublished log row.sourceId row.manifestVersion) :
    Keeps log files (upsertFile files row set) where
  rows key old hold := by
    rw [lookup_upsertFile files row hkey, hold]
    split_ifs with hsame
    · subst hsame
      exact ⟨set old, rfl, hid old, fun hpublished => absurd hpublished hfree⟩
    · exact ⟨old, rfl, rfl, fun _ => rfl⟩
  ids hunique := by
    unfold upsertFile
    split_ifs
    · exact UniqueKey.of_map_eq (map_updateKey hid row.key) hunique
    · refine unique_append hunique (lookup_eq_none.mpr fun old hold => ?_)
      exact (id_lt_nextFileId hold).ne

/-- The files of an entry are recorded. -/
def Recorded (files : List SourceFileRow) (entry : Entry) : Prop :=
  ∀ ordinal file, entry.files[ordinal]? = some file →
    ∃ row, lookup SourceFileRow.key files (entry.sourceId, entry.version, ordinal) = some row
      ∧ rowFile row = file

theorem Recorded.keeps {entry : Entry} (h : Recorded files entry) (hmem : entry ∈ log)
    (hkeeps : Keeps log files files') : Recorded files' entry := by
  intro ordinal file hfile
  obtain ⟨row, hrow, rfl⟩ := h ordinal file hfile
  obtain ⟨row', hrow', -, hsame⟩ := hkeeps.rows _ row hrow
  exact ⟨row', hrow', hsame ⟨entry, hmem, rfl, rfl⟩⟩

/-- The files of the last publication of a source are recorded. -/
theorem recorded_of_shows {entry : Entry} (h : Shows files entry.sourceId (some entry)) :
    Recorded files entry := by
  intro ordinal file hfile
  obtain ⟨row, hrow, -, hsame⟩ := h.files entry rfl ordinal file hfile
  exact ⟨row, hrow, hsame⟩

/-- Of publications of distinct sources each is the last one of its source. -/
theorem current_append_of_nodup {new : List Entry} (hnodup : (new.map Entry.sourceId).Nodup)
    {entry : Entry} (hmem : entry ∈ new) :
    current (log ++ new) entry.sourceId = some entry := by
  have hfilter : new.filter (fun other => other.sourceId = entry.sourceId) = [entry] :=
    UniqueKey.filter_eq hnodup hmem fun other hother => by
      rw [decide_eq_true_eq]
      exact ⟨List.inj_on_of_nodup_map hnodup hother hmem, congrArg Entry.sourceId⟩
  unfold current
  rw [List.filter_append, hfilter, List.getLast?_concat]

theorem current_append_of_ne {new : List Entry} {sourceId : Id}
    (h : ∀ entry ∈ new, entry.sourceId ≠ sourceId) :
    current (log ++ new) sourceId = current log sourceId := by
  have hfilter : new.filter (fun entry => entry.sourceId = sourceId) = [] :=
    List.filter_eq_nil_iff.mpr fun entry hentry => by
      rw [decide_eq_true_eq]
      exact h entry hentry
  unfold current
  rw [List.filter_append, hfilter, List.append_nil]

end

/-! ### Loads -/

section

variable {codec : QbitCodec} {scanCodec : ScanCodec} {sys sys' : Manifest.Sys} {log : List Entry}

/-- What a statement of the inventory or of a load does to the files and to the data sources, and
what it publishes. -/
inductive Writes (sys sys' : Manifest.Sys) : Prop where
  | keep (hsources : sys'.store.dataSources = sys.store.dataSources)
    (hfiles : sys'.store.files = sys.store.files) (hpublished : sys'.published = sys.published)
  | hide (hsources : sys'.store.dataSources = sys.store.dataSources) (sourceId : Id)
    (p : SourceFileRow → Bool)
    (hfiles : sys'.store.files = setAvailable sys.store.files sourceId p false)
    (hpublished : sys'.published = sys.published)
  | stage (hsources : sys'.store.dataSources = sys.store.dataSources) (load : Manifest.Load)
    (hload : sys.load = some load) (batch : List InventoryFile)
    (hfiles : batch.foldlM (stageFile load.target) sys.store.files = .ok sys'.store.files)
    (hpublished : sys'.published = sys.published)
  | publish (hsources : sys'.store.dataSources = sys.store.dataSources) (load : Manifest.Load)
    (hload : sys.load = some load)
    (hfiles : sys'.store.files = setAvailable
      (setAvailable sys.store.files load.target.sourceId (fun _ => true) false)
      load.target.sourceId
      (fun row => row.manifestVersion = load.target.version ∧ row.ordinal < load.staged.length)
      true)
    (hpublished : sys'.published = sys.published
      ++ [⟨load.target.sourceId, load.target.version, load.staged⟩])

/-- **Every statement of the inventory and of the loads.** -/
theorem writes_apply (hunique : UniqueKey TorrentRow.qbitId sys.store.torrents)
    (event : Manifest.Event) : Writes sys (event.apply codec sys) := by
  cases event with
  | change generation detectCompletions now delta =>
    simp only [Manifest.Event.apply]
    split
    · exact .keep rfl rfl rfl
    · rename_i hchange
      exact .keep (ids_projectChange hchange).1 (Manifest.evolves_projectChange hunique hchange).2
        rfl
  | finishUpdate generation attempt =>
    simp only [Manifest.Event.apply]
    split
    · exact .keep rfl rfl rfl
    · rename_i hfinish
      exact .keep (finish_keeps hfinish).1 (Manifest.evolves_finish hfinish).2 rfl
  | request sourceId => exact .keep rfl rfl rfl
  | prepare sourceId =>
    simp only [Manifest.Event.apply]
    split
    · exact .keep rfl rfl rfl
    · rename_i hprepare
      obtain ⟨row, -, -, -, -, rfl⟩ := prepareQbitManifest_eq_ok hprepare
      exact .hide rfl sourceId _ rfl rfl
  | stage batch =>
    simp only [Manifest.Event.apply]
    split
    · exact .keep rfl rfl rfl
    · rename_i load hload
      split
      · split
        · exact .keep rfl rfl rfl
        · rename_i hproject
          obtain ⟨files, hfiles, rfl⟩ := projectQbitFiles_eq_ok hproject
          exact .stage rfl load hload batch hfiles rfl
      · exact .keep rfl rfl rfl
  | publish now =>
    simp only [Manifest.Event.apply]
    split
    · exact .keep rfl rfl rfl
    · rename_i load hload
      split
      · exact .keep rfl rfl rfl
      · rename_i hfinish
        obtain rfl := finishQbitManifest_eq_ok hfinish
        exact .publish rfl load hload rfl rfl
  | fail sourceId => exact .keep rfl rfl rfl
  | abort => exact .keep rfl rfl rfl

/-- The versions of a torrent do not decrease: none is above the last one. -/
def Ascending (store : Store) (log : List Entry) : Prop :=
  ∀ entry ∈ log, (∀ source ∈ store.dataSources, source.id ≠ entry.sourceId) →
    ∀ last, current log entry.sourceId = some last → entry.version ≤ last.version

/-- The version that a load stages is above those that have been published. -/
theorem lt_version_of_load (hinv : Inv scanCodec sys log) (hascending : Ascending sys.store log)
    (hapart : IdsApart sys.store) {load : Manifest.Load} (hload : sys.load = some load)
    {entry : Entry} (hmem : entry ∈ log) (hsource : entry.sourceId = load.target.sourceId) :
    entry.version < load.target.version := by
  obtain ⟨⟨row, hrow, hid, hversion, -⟩, -, -⟩ := hinv.manifest.load load hload
  have hcurrent := hinv.versions row hrow
  cases hlast : current log row.id with
  | none => exact absurd (hsource.trans hid.symm) (current_eq_none.mp hlast entry hmem)
  | some last =>
    rw [hlast, Option.map_some, Option.getD_some] at hcurrent
    have hle := hascending entry hmem
      (fun source hmem heq => hapart row hrow source hmem
        (hid.trans (hsource.symm.trans heq.symm))) last (by rw [hsource, ← hid]; exact hlast)
    omega

/-- A statement of the inventory or of a load writes no file of a version that is published. -/
theorem keeps_writes (hinv : Inv scanCodec sys log) (hascending : Ascending sys.store log)
    (hapart : IdsApart sys.store) (h : Writes sys sys') :
    Keeps log sys.store.files sys'.store.files := by
  cases h with
  | keep _ hfiles => exact keeps_of_eq hfiles
  | hide _ sourceId p hfiles =>
    rw [hfiles]
    exact keeps_setAvailable log sys.store.files sourceId p false
  | stage _ load hload batch hfiles =>
    have hfold := foldlM_invariant_mem
      (P := fun _ (files : List SourceFileRow) => Keeps log sys.store.files files)
      (fun _ file _ before after hbefore hstage => by
        unfold stageFile at hstage
        obtain ⟨index, -, hstage⟩ := bind_eq_ok.mp hstage
        obtain ⟨size, -, hstage⟩ := bind_eq_ok.mp hstage
        obtain rfl := Except.ok.inj hstage
        refine hbefore.trans (keeps_upsertFile (Manifest.restage_key _) (fun _ => rfl) ?_)
        rintro ⟨entry, hentry, hsource, hversion⟩
        exact (lt_version_of_load hinv hascending hapart hload hentry hsource).ne hversion)
      (.refl log sys.store.files) hfiles
    exact hfold
  | publish _ load hload hfiles =>
    rw [hfiles]
    exact (keeps_setAvailable log _ _ _ _).trans (keeps_setAvailable log _ _ _ _)

end

/-! ### Scans -/

section

variable {codec : ScanCodec} {log : List Entry} {input : ScanInput}

/-- The files of a release, of a generation that has not been published. -/
theorem keeps_persistFiles (files : List SourceFileRow) {release : ScannedRelease}
    (hfree : ¬ IsPublished log (dataSourceId codec input.rootName release.relativePath)
      input.generation) :
    Keeps log files (persistFiles codec files input.rootName input.generation release) := by
  refine (keeps_setAvailable log files _ _ _).trans (keeps_foldl ?_ _ _)
  rintro before ⟨file, ordinal⟩
  exact keeps_upsertFile (restore_key _) (fun _ => rfl) hfree

/-- The releases of a page. -/
theorem keeps_releases {root : DataRoot} {now : ℤ} {store : Store} {count : ℕ}
    {releases : List ScannedRelease} {result : Store × ℕ}
    (h : releases.foldlM (persistOne codec root input now) (store, count) = .ok result)
    (hfree : ∀ release ∈ releases,
      ¬ IsPublished log (dataSourceId codec input.rootName release.relativePath)
        input.generation) :
    Keeps log store.files result.1.files := by
  have hfold := foldlM_invariant_mem
    (P := fun _ (state : Store × ℕ) => Keeps log store.files state.1.files)
    (fun _ release hrelease before after hbefore hafter => by
      obtain ⟨dataSources, -, hafter⟩ := persistRelease_eq_some (persistOne_eq_ok hafter)
      rw [hafter]
      exact hbefore.trans (keeps_persistFiles before.1.files (hfree release hrelease)))
    (.refl log store.files) h
  exact hfold

end

/-- No two scans that have been accepted have one generation. -/
def GenerationsApart (scans : Scans) : Prop :=
  ∀ input ∈ scans.inputs, ∀ other ∈ scans.inputs,
    input.generation = other.generation → input.operationId = other.operationId

instance (scans : Scans) : Decidable (GenerationsApart scans) :=
  inferInstanceAs (Decidable (∀ input ∈ scans.inputs, ∀ other ∈ scans.inputs,
    input.generation = other.generation → input.operationId = other.operationId))

/-- The publication is of a torrent, or of a release that a page has stored. -/
def Origin (codec : ScanCodec) (world : World) (entry : Entry) : Prop :=
  (∃ torrent ∈ world.store.torrents, torrent.id = entry.sourceId)
    ∨ ∃ input releases, Effect.stamped input releases ∈ world.scans.effects
      ∧ ∃ release ∈ releases, entry = releaseEntry codec input release

/-- What holds between the statements of the loads and of the scans. -/
structure Kept (codec : ScanCodec) (world : World) : Prop where
  inv : Inv codec world.sys world.log
  once : Once world.scans
  shown : ∀ key, rowShown world.store.dataSources key = shown world.scans.effects key
  origins : ∀ entry ∈ world.log, Origin codec world entry
  ascending : Ascending world.store world.log
  recorded : ∀ entry ∈ world.log, Recorded world.store.files entry
  ids : UniqueKey SourceFileRow.id world.store.files

section

variable {codec : QbitCodec} {scanCodec : ScanCodec} {roots : String → Option DataRoot}
  {world world' : World}

/-- What an event publishes keeps what holds. -/
theorem Kept.publish (h : Kept scanCodec world) (hinv : Inv scanCodec world'.sys world'.log)
    (honce : Once world'.scans)
    (hshown : ∀ key,
      rowShown world'.store.dataSources key = ScanSweeps.shown world'.scans.effects key)
    (hkeeps : Keeps world.log world.store.files world'.store.files)
    (hids : KeepsIds world.store world'.store)
    (heffects : world.scans.effects ⊆ world'.scans.effects) (new : List Entry)
    (hlog : world'.log = world.log ++ new) (hnodup : (new.map Entry.sourceId).Nodup)
    (horigins : ∀ entry ∈ new, Origin scanCodec world' entry)
    (hascending : ∀ entry ∈ new, ∀ old ∈ world.log, old.sourceId = entry.sourceId →
      (∃ source ∈ world'.store.dataSources, source.id = entry.sourceId)
        ∨ old.version ≤ entry.version) : Kept scanCodec world' := by
  constructor
  case inv => exact hinv
  case once => exact honce
  case shown => exact hshown
  case origins =>
    rw [hlog, List.forall_mem_append]
    refine ⟨fun entry hentry => ?_, horigins⟩
    rcases h.origins entry hentry with ⟨torrent, htorrent, hid⟩ | ⟨input, releases, hmem, hfound⟩
    · obtain ⟨torrent', htorrent', hid'⟩ := hids.torrents torrent htorrent
      exact .inl ⟨torrent', htorrent', hid'.trans hid⟩
    · exact .inr ⟨input, releases, heffects hmem, hfound⟩
  case ascending =>
    intro entry hentry hsources last hlast
    rw [hlog] at hentry hlast
    by_cases hsame : ∃ e ∈ new, e.sourceId = entry.sourceId
    · -- The last entry of the source is the new one.
      obtain ⟨e, he, hsource⟩ := hsame
      rw [← hsource, current_append_of_nodup hnodup he, Option.some_inj] at hlast
      subst hlast
      rcases List.mem_append.mp hentry with hold | hnew
      · rcases hascending e he entry hold hsource.symm with ⟨source, hmem, hid⟩ | hle
        · exact absurd (hid.trans hsource) (hsources source hmem)
        · exact hle
      · rw [List.inj_on_of_nodup_map hnodup he hnew hsource]
    · have hne : ∀ e ∈ new, e.sourceId ≠ entry.sourceId := fun e he heq => hsame ⟨e, he, heq⟩
      rw [current_append_of_ne hne] at hlast
      refine h.ascending entry ?_ (fun source hmem heq => ?_) last hlast
      · exact (List.mem_append.mp hentry).resolve_right fun hnew => hne entry hnew rfl
      · obtain ⟨source', hmem', hid⟩ := hids.dataSources source hmem
        exact hsources source' hmem' (hid.trans heq)
  case recorded =>
    rw [hlog, List.forall_mem_append]
    refine ⟨fun entry hentry => (h.recorded entry hentry).keeps hentry hkeeps,
      fun entry hentry => ?_⟩
    have hshows := hinv.shows entry.sourceId
    rw [hlog, current_append_of_nodup hnodup hentry] at hshows
    exact recorded_of_shows hshows
  case ids => exact hkeeps.ids h.ids

/-! ### Loads -/

/-- **A statement of the inventory or of a load.** -/
theorem kept_manifest (h : Kept scanCodec world) (event : Manifest.Event)
    (hapart : IdsApart (Event.apply codec scanCodec roots world (.manifest event)).store) :
    Keeps world.log world.store.files
        (Event.apply codec scanCodec roots world (.manifest event)).store.files
      ∧ Kept scanCodec (Event.apply codec scanCodec roots world (.manifest event)) := by
  have hids := @keepsIds_apply codec scanCodec roots world (.manifest event)
  have hinv := inv_event h.inv (.manifest event) hapart
  have hwrites : Writes world.sys (event.apply codec world.sys) :=
    writes_apply h.inv.manifest.qbitIds event
  have hkeeps := keeps_writes h.inv h.ascending (hids.idsApart hapart) hwrites
  have hsources : (event.apply codec world.sys).store.dataSources = world.store.dataSources := by
    cases hwrites <;> assumption
  have hshown : ∀ key, rowShown (event.apply codec world.sys).store.dataSources key
      = ScanSweeps.shown world.scans.effects key := by
    rw [hsources]
    exact h.shown
  refine ⟨hkeeps, ?_⟩
  -- A statement that publishes nothing.
  have hquiet : (event.apply codec world.sys).published = world.sys.published →
      Kept scanCodec (Event.apply codec scanCodec roots world (.manifest event)) := by
    intro hpublished
    refine h.publish hinv h.once hshown hkeeps hids (fun _ h => h) [] ?_ List.nodup_nil
      (fun _ hmem => absurd hmem List.not_mem_nil) fun _ hmem => absurd hmem List.not_mem_nil
    simp only [Event.apply, hpublished, List.drop_length, List.map_nil]
  cases hwrites with
  | keep _ _ hpublished => exact hquiet hpublished
  | hide _ _ _ _ hpublished => exact hquiet hpublished
  | stage _ _ _ _ _ hpublished => exact hquiet hpublished
  | publish _ load hload _ hpublished =>
    obtain ⟨⟨row, hrow, hid, -⟩, -⟩ := h.inv.manifest.load load hload
    refine h.publish hinv h.once hshown hkeeps hids (fun _ h => h)
      [publicationEntry ⟨load.target.sourceId, load.target.version, load.staged⟩] ?_
      (List.nodup_singleton _) ?_ ?_
    · simp only [Event.apply, hpublished, List.drop_left, List.map_cons, List.map_nil]
    · rw [List.forall_mem_singleton]
      obtain ⟨row', hrow', hid'⟩ := hids.torrents row hrow
      exact .inl ⟨row', hrow', hid'.trans hid⟩
    · rw [List.forall_mem_singleton]
      exact fun old hold hsource => .inr
        (lt_version_of_load h.inv h.ascending (hids.idsApart hapart) hload hold hsource).le

/-! ### Pages -/

/-- What a page has found is shown. -/
theorem shown_isSome {effects : List Effect} {effect : Effect} (hmem : effect ∈ effects)
    (key : String × Bytes) (hstamps : Stamps key effect) :
    (ScanSweeps.shown effects key).isSome = true := by
  induction effects using List.reverseRecOn with
  | nil => exact absurd hmem List.not_mem_nil
  | append_singleton effects last ih =>
    rw [ScanSweeps.shown, List.foldl_append, List.foldl_cons, List.foldl_nil, ← ScanSweeps.shown]
    rcases List.mem_append.mp hmem with hold | hnew
    · obtain ⟨seen, hseen⟩ := Option.isSome_iff_exists.mp (ih hold)
      rw [hseen]
      cases last with
      | stamped => rw [showEffect]; split_ifs <;> rfl
      | swept => rw [showEffect]; split_ifs <;> rfl
      | hidden => rw [showEffect]; split_ifs <;> rfl
    · obtain rfl := List.mem_singleton.mp hnew
      cases effect with
      | stamped input releases =>
        have hfinds : ScanSweeps.Finds key input releases := hstamps
        rw [showEffect, if_pos hfinds]
        rfl
      | swept input => exact False.elim hstamps
      | hidden input => exact False.elim hstamps

section

variable {sys : Manifest.Sys} {log : List Entry} {scans : Scans} {input other : ScanInput}
  {releases others : List ScannedRelease} {release found : ScannedRelease}

/-- A release that a page has stored has a row. -/
theorem source_of_stamped (hinv : Inv scanCodec sys log)
    (hshown : ∀ key, rowShown sys.store.dataSources key = ScanSweeps.shown scans.effects key)
    (hmem : .stamped input releases ∈ scans.effects) (hrelease : release ∈ releases) :
    ∃ source ∈ sys.store.dataSources, source.key = (input.rootName, release.relativePath)
      ∧ source.id = dataSourceId scanCodec input.rootName release.relativePath := by
  have hsome := shown_isSome hmem (input.rootName, release.relativePath)
    ⟨rfl, List.mem_map_of_mem hrelease⟩
  rw [← hshown, rowShown, Option.isSome_map] at hsome
  obtain ⟨source, hsource⟩ := Option.isSome_iff_exists.mp hsome
  obtain ⟨hmem, hkey⟩ := lookup_eq_some_mem hsource
  obtain ⟨hroot, hpath⟩ := Prod.mk.inj hkey
  exact ⟨source, hmem, hkey, by rw [hinv.sourceId source hmem, hroot, hpath]⟩

/-- Releases that have been stored are told apart by the identifiers of their sources. -/
theorem key_of_id (hinv : Inv scanCodec sys log)
    (hshown : ∀ key, rowShown sys.store.dataSources key = ScanSweeps.shown scans.effects key)
    (hmem : .stamped input releases ∈ scans.effects) (hrelease : release ∈ releases)
    (hmem' : .stamped other others ∈ scans.effects) (hfound : found ∈ others)
    (hid : dataSourceId scanCodec input.rootName release.relativePath
      = dataSourceId scanCodec other.rootName found.relativePath) :
    (input.rootName, release.relativePath) = (other.rootName, found.relativePath) := by
  obtain ⟨source, hsource, hkey, hsourceId⟩ := source_of_stamped hinv hshown hmem hrelease
  obtain ⟨source', hsource', hkey', hsourceId'⟩ := source_of_stamped hinv hshown hmem' hfound
  obtain rfl := List.inj_on_of_nodup_map hinv.sourceIds hsource hsource'
    (hsourceId.trans (hid.trans hsourceId'.symm))
  exact hkey.symm.trans hkey'

theorem mem_persistedPaths (hmem : .stamped input releases ∈ scans.effects)
    (hrelease : release ∈ releases) :
    release.relativePath ∈ persistedPaths input.operationId scans.effects :=
  List.mem_flatMap.mpr ⟨_, hmem, by
    dsimp only
    rw [if_pos rfl]
    exact List.mem_map_of_mem hrelease⟩

/-- The releases of a page have not been published with the generation of the scan. -/
theorem free_of_page (h : Kept scanCodec world) (hinv : Inv scanCodec sys log)
    (hids : KeepsIds world.store sys.store) (hapart : IdsApart sys.store) (honce : Once scans)
    (hshown : ∀ key, rowShown sys.store.dataSources key = ScanSweeps.shown scans.effects key)
    (hgenerations : GenerationsApart scans)
    (heffects : scans.effects = world.scans.effects ++ [.stamped input releases]) :
    ∀ release ∈ releases, ¬ IsPublished world.log
      (dataSourceId scanCodec input.rootName release.relativePath) input.generation := by
  rintro release hrelease ⟨entry, hentry, hsource, hversion⟩
  have hmem : .stamped input releases ∈ scans.effects := by rw [heffects]; simp
  rcases h.origins entry hentry with ⟨torrent, htorrent, hid⟩ | ⟨other, others, hmem', found,
    hfound, rfl⟩
  · obtain ⟨source, hsource', -, hsourceId⟩ := source_of_stamped hinv hshown hmem hrelease
    obtain ⟨torrent', htorrent', hid'⟩ := hids.torrents torrent htorrent
    exact hapart torrent' htorrent' source hsource'
      (hid'.trans (hid.trans (hsource.trans hsourceId.symm)))
  · have hmem'' : .stamped other others ∈ scans.effects := by
      rw [heffects]
      exact List.mem_append_left _ hmem'
    obtain ⟨-, hpath⟩ := Prod.mk.inj (key_of_id hinv hshown hmem'' hfound hmem hrelease hsource)
    have hoperation : other.operationId = input.operationId :=
      hgenerations other (honce.stamped other others hmem'').1 input
        (honce.stamped input releases hmem).1 hversion
    -- The scan would have stored the release twice.
    have hnodup := honce.once input.operationId
    rw [heffects, persistedPaths_append, if_pos rfl] at hnodup
    refine (List.nodup_append.mp hnodup).2.2 _ ?_ _ (List.mem_map_of_mem hrelease) hpath
    rw [← hoperation]
    exact mem_persistedPaths hmem' hfound

/-- The releases of a page have sources of their own. -/
theorem nodup_sources (hinv : Inv scanCodec sys log) (honce : Once scans)
    (hshown : ∀ key, rowShown sys.store.dataSources key = ScanSweeps.shown scans.effects key)
    {effects : List Effect} (heffects : scans.effects = effects ++ [.stamped input releases]) :
    ((releases.map (releaseEntry scanCodec input)).map Entry.sourceId).Nodup := by
  have hmem : .stamped input releases ∈ scans.effects := by rw [heffects]; simp
  have hnodup := honce.once input.operationId
  rw [heffects, persistedPaths_append, if_pos rfl] at hnodup
  have hpaths := List.pairwise_map.mp (List.nodup_append.mp hnodup).2.1
  rw [List.map_map]
  refine List.pairwise_map.mpr (hpaths.imp_of_mem fun hfirst hsecond hne heq => hne ?_)
  exact (Prod.mk.inj (key_of_id hinv hshown hmem hfirst hmem hsecond heq)).2

end

/-- **A statement of a scan.** -/
theorem kept_scan (h : Kept scanCodec world) (event : DataScan.Event)
    (hapart : IdsApart (Event.apply codec scanCodec roots world (.scan event)).store)
    (hgenerations : GenerationsApart
      (Event.apply codec scanCodec roots world (.scan event)).scans) :
    Keeps world.log world.store.files
        (Event.apply codec scanCodec roots world (.scan event)).store.files
      ∧ Kept scanCodec (Event.apply codec scanCodec roots world (.scan event)) := by
  have hstep : Step scanCodec roots (world.sys.store, world.scans)
      (event.apply scanCodec roots (world.sys.store, world.scans)) := step_apply event
  have hinv := inv_event h.inv (.scan event) hapart
  have hids := @keepsIds_apply codec scanCodec roots world (.scan event)
  have honce := once_step h.once hstep
  have hshown := rowShown_step hstep h.shown
  have hworld : Event.apply codec scanCodec roots world (.scan event)
      = ⟨{ world.sys with
            store := (event.apply scanCodec roots (world.sys.store, world.scans)).1 },
          (event.apply scanCodec roots (world.sys.store, world.scans)).2,
          world.log ++ ((event.apply scanCodec roots (world.sys.store, world.scans)).2.effects.drop
            world.scans.effects.length).flatMap (effectEntries scanCodec)⟩ := rfl
  rw [hworld] at hapart hgenerations hinv hids ⊢
  generalize event.apply scanCodec roots (world.sys.store, world.scans) = state at *
  -- A statement that stores no release.
  have hquiet : ∀ effects, state.2.effects = world.scans.effects ++ effects →
      effects.flatMap (effectEntries scanCodec) = [] → state.1.files = world.store.files →
      Keeps world.log world.store.files state.1.files ∧ Kept scanCodec
        ⟨{ world.sys with store := state.1 }, state.2, world.log ++ (state.2.effects.drop
          world.scans.effects.length).flatMap (effectEntries scanCodec)⟩ := by
    intro effects heffects hnothing hfiles
    have hkeeps : Keeps world.log world.store.files state.1.files := keeps_of_eq hfiles
    refine ⟨hkeeps, h.publish hinv honce hshown hkeeps hids ?_ [] ?_ List.nodup_nil
      (fun _ hmem => absurd hmem List.not_mem_nil) fun _ hmem => absurd hmem List.not_mem_nil⟩
    · rw [heffects]
      exact List.subset_append_left _ _
    · rw [heffects, List.drop_left, hnothing]
  cases hstep with
  | accept _ _ hsources _ _ heffects =>
    exact hquiet [] (by rw [heffects, List.append_nil]) rfl hsources.files
  | control _ _ hsources _ _ heffects =>
    exact hquiet [] (by rw [heffects, List.append_nil]) rfl hsources.files
  | hide input _ _ now hstore _ _ heffects =>
    exact hquiet _ heffects rfl (by rw [hstore]; rfl)
  | sweep input _ _ now hstore _ _ heffects =>
    exact hquiet _ heffects rfl (by rw [hstore]; rfl)
  | page input _ root _ _ _ _ page _ _ now store _ _ hreleases hsources _ _ heffects =>
    have hfree := free_of_page h hinv hids hapart honce hshown hgenerations heffects
    have hkeeps : Keeps world.log world.store.files state.1.files := by
      rw [hsources.files]
      exact keeps_releases hreleases hfree
    refine ⟨hkeeps, h.publish hinv honce hshown hkeeps hids ?_
      (page.releases.map (releaseEntry scanCodec input)) ?_
      (nodup_sources hinv honce hshown heffects) ?_ ?_⟩
    · rw [heffects]
      exact List.subset_append_left _ _
    · rw [heffects, List.drop_left, List.flatMap_singleton]
      rfl
    · intro entry hentry
      obtain ⟨release, hrelease, rfl⟩ := List.mem_map.mp hentry
      exact .inr ⟨input, page.releases, by rw [heffects]; simp, release, hrelease, rfl⟩
    · intro entry hentry old _ _
      obtain ⟨release, hrelease, rfl⟩ := List.mem_map.mp hentry
      obtain ⟨source, hsource, -, hid⟩ := @source_of_stamped scanCodec _ _ state.2 input
        page.releases release hinv hshown (by rw [heffects]; simp) hrelease
      exact .inl ⟨source, hsource, hid⟩

/-! ### Runs -/

/-- **Every event** keeps the files. -/
theorem kept_event (h : Kept scanCodec world) (event : Event)
    (hapart : IdsApart (event.apply codec scanCodec roots world).store)
    (hgenerations : GenerationsApart (event.apply codec scanCodec roots world).scans) :
    Keeps world.log world.store.files (event.apply codec scanCodec roots world).store.files
      ∧ Kept scanCodec (event.apply codec scanCodec roots world) := by
  cases event with
  | manifest event => exact kept_manifest h event hapart
  | scan event => exact kept_scan h event hapart hgenerations

/-- Every event keeps that no release is stored twice, and the scans that have been accepted. -/
theorem once_apply (h : Once world.scans) (event : Event) :
    Once (event.apply codec scanCodec roots world).scans
      ∧ world.scans.inputs ⊆ (event.apply codec scanCodec roots world).scans.inputs := by
  cases event with
  | manifest event => exact ⟨h, fun _ hinput => hinput⟩
  | scan event =>
    have hstep := @step_apply scanCodec roots (world.sys.store, world.scans) event
    exact ⟨once_step h hstep, (hstep.inputs h.inputs).2⟩

theorem once_run (h : Once world.scans) (events : List Event) :
    Once (run codec scanCodec roots world events).scans
      ∧ world.scans.inputs ⊆ (run codec scanCodec roots world events).scans.inputs := by
  induction events using List.reverseRecOn with
  | nil => exact ⟨h, fun _ hinput => hinput⟩
  | append_singleton events event ih =>
    rw [run_append]
    obtain ⟨honce, hinputs⟩ := once_apply ih.1 event
    exact ⟨honce, List.Subset.trans ih.2 hinputs⟩

theorem GenerationsApart.subset {scans scans' : Scans} (h : GenerationsApart scans')
    (hinputs : scans.inputs ⊆ scans'.inputs) : GenerationsApart scans :=
  fun input hinput other hother => h input (hinputs hinput) other (hinputs hother)

/-- **Every run** keeps the files: whatever the loads, the inventory and the scans do, the rows stay
with their identifiers, and those of published versions say what they said. -/
theorem keeps_run (h : Kept scanCodec world) (events : List Event)
    (hapart : IdsApart (run codec scanCodec roots world events).store)
    (hgenerations : GenerationsApart (run codec scanCodec roots world events).scans) :
    Keeps world.log world.store.files (run codec scanCodec roots world events).store.files
      ∧ Kept scanCodec (run codec scanCodec roots world events) := by
  induction events using List.reverseRecOn with
  | nil => exact ⟨.refl _ _, h⟩
  | append_singleton events event ih =>
    rw [run_append] at hapart hgenerations ⊢
    have honce := (@once_run codec scanCodec roots world h.once events).1
    have hinputs := (@once_apply codec scanCodec roots _ honce event).2
    obtain ⟨hkeeps, hkept⟩ := ih ((keepsIds_apply _ event).idsApart hapart)
      (hgenerations.subset hinputs)
    obtain ⟨hnext, hkept'⟩ := kept_event hkept event hapart hgenerations
    have hgrows := (@grows_run codec scanCodec roots world events).1
    exact ⟨hkeeps.trans (hnext.mono hgrows.subset), hkept'⟩

theorem kept_init : Kept scanCodec World.init := by
  refine ⟨inv_init, once_init, fun _ => rfl, ?_, ?_, ?_, List.nodup_nil⟩ <;>
    exact fun _ hmem => absurd hmem List.not_mem_nil

/-- **The files of a moment** at the end of a run. -/
theorem keeps_worldAt {events : List Event}
    (hapart : IdsApart (run codec scanCodec roots World.init events).store)
    (hgenerations : GenerationsApart (run codec scanCodec roots World.init events).scans) (n : ℕ) :
    Keeps (worldAt codec scanCodec roots events n).log
        (worldAt codec scanCodec roots events n).store.files
        (run codec scanCodec roots World.init events).store.files
      ∧ Kept scanCodec (worldAt codec scanCodec roots events n)
      ∧ Kept scanCodec (run codec scanCodec roots World.init events) := by
  have hrun : run codec scanCodec roots (worldAt codec scanCodec roots events n) (events.drop n)
      = run codec scanCodec roots World.init events := by
    rw [worldAt, ← run_run, List.take_append_drop]
  have hids := (@grows_run codec scanCodec roots (worldAt codec scanCodec roots events n)
    (events.drop n)).2
  have honce := (@once_run codec scanCodec roots World.init once_init (events.take n)).1
  have hinputs := (@once_run codec scanCodec roots _ honce (events.drop n)).2
  rw [← hrun] at hapart hgenerations ⊢
  have hkept := (@keeps_run codec scanCodec roots World.init kept_init (events.take n)
    (hids.idsApart hapart) (hgenerations.subset hinputs)).2
  obtain ⟨hkeeps, hkept'⟩ := keeps_run hkept (events.drop n) hapart hgenerations
  exact ⟨hkeeps, hkept, hkept'⟩

/-- The row of a file of a release has the place of the file. -/
def HasPlace (row : SourceFileRow) : Prop :=
  ∃ localPath, row.localPath = some localPath ∧ EndsWithName localPath

/-- An available row is of a file that has been published. -/
theorem published_of_available (h : Kept scanCodec world) {row : SourceFileRow}
    (hrow : row ∈ world.store.files) (havailable : row.available = true) :
    ∃ entry ∈ world.log, entry.sourceId = row.sourceId ∧ entry.version = row.manifestVersion
      ∧ entry.files[row.ordinal]? = some (rowFile row) := by
  have hlookup : lookup SourceFileRow.key world.store.files
      (row.sourceId, row.manifestVersion, row.ordinal) = some row :=
    UniqueKey.lookup_of_mem h.inv.manifest.files hrow rfl
  obtain ⟨entry, hentry, hversion, hlt⟩ :=
    (h.inv.shows row.sourceId).available _ _ row hlookup havailable
  obtain ⟨hmem, hsource⟩ := current_mem hentry
  refine ⟨entry, hmem, hsource, hversion.symm, ?_⟩
  obtain ⟨row', hrow', hsame⟩ := h.recorded entry hmem row.ordinal _
    (List.getElem?_eq_getElem hlt)
  rw [hsource, ← hversion, hlookup, Option.some_inj] at hrow'
  rw [List.getElem?_eq_getElem hlt, ← hsame, hrow']

/-- **A row that has been available**, at the end of a run: a row with its identifier says the same,
and its source is a torrent, or a release with the place of the file. -/
theorem row_stays {events : List Event}
    (hapart : IdsApart (run codec scanCodec roots World.init events).store)
    (hgenerations : GenerationsApart (run codec scanCodec roots World.init events).scans) {n : ℕ}
    {row : SourceFileRow} (hrow : row ∈ (worldAt codec scanCodec roots events n).store.files)
    (havailable : row.available = true) :
    ∃ row' ∈ (run codec scanCodec roots World.init events).store.files,
      row'.id = row.id ∧ row'.sourceId = row.sourceId ∧ rowFile row' = rowFile row
        ∧ ((∃ torrent ∈ (run codec scanCodec roots World.init events).store.torrents,
            torrent.id = row.sourceId)
          ∨ ((∃ source ∈ (run codec scanCodec roots World.init events).store.dataSources,
            source.id = row.sourceId) ∧ HasPlace row')) := by
  obtain ⟨hkeeps, hkept, hkept'⟩ := keeps_worldAt hapart hgenerations n
  obtain ⟨entry, hentry, hsource, hversion, hfile⟩ := published_of_available hkept hrow havailable
  obtain ⟨row', hrow', hid, hsame⟩ := hkeeps.rows _ row
    (UniqueKey.lookup_of_mem hkept.inv.manifest.files hrow rfl)
  obtain ⟨hmem, hkey⟩ := lookup_eq_some_mem hrow'
  obtain ⟨hsourceId, -⟩ := Prod.mk.inj hkey
  have hfacts := hsame ⟨entry, hentry, hsource, hversion⟩
  refine ⟨row', hmem, hid, hsourceId, hfacts, ?_⟩
  have hlog := (@EvaluationReads.grows_worldAt codec scanCodec roots events n).1.subset hentry
  rcases hkept'.origins entry hlog with ⟨torrent, htorrent, htorrentId⟩ | ⟨input, releases,
    hstamped, release, hrelease, rfl⟩
  · exact .inl ⟨torrent, htorrent, htorrentId.trans hsource⟩
  · obtain ⟨source, hsource', -, hsourceId'⟩ :=
      source_of_stamped hkept'.inv hkept'.shown hstamped hrelease
    refine .inr ⟨⟨source, hsource', hsourceId'.trans hsource⟩, ?_⟩
    rw [releaseEntry, List.getElem?_map] at hfile
    obtain ⟨file, hfile, hreleased⟩ := Option.map_eq_some_iff.mp hfile
    refine ⟨file.localPath, ?_, (hkept'.once.stamped input releases hstamped).2 release hrelease
      file (List.mem_of_getElem? hfile)⟩
    exact congrArg PublishedFile.localPath (hfacts.trans hreleased.symm)

end

end Sporos.Service.KeptFiles
