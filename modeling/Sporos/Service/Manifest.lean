import Sporos.Service.QbitSync

/-! # The publication of manifests

The load of a manifest prepares the next version of a torrent's manifest, stages its files batch by
batch and publishes them; it may stop after any statement, and the inventory changes meanwhile. A
torrent whose manifest is loaded has, as its available files, those of the load that published its
version. -/

namespace Sporos.Service.Manifest

open Sporos.Service.Tables
open Sporos.Service.Ingress
open Sporos.Service.Inventory
open Sporos.Service.Sources
open Sporos.Service.Completion
open Sporos.Service.QbitProjection
open Sporos.Service.QbitSync
open Sporos.Lib.Table
open Sporos.Lib.Loop

/-! ### Loads -/

/-- A load that is going on, with the files that it has staged. -/
structure Load where
  target : ManifestTarget
  staged : List InventoryFile
  deriving DecidableEq, Repr

/-- A load that has published its files. -/
structure Publication where
  sourceId : Id
  version : ℕ
  files : List InventoryFile
  deriving DecidableEq, Repr

/-- The store, the load that is going on, and those that have published. -/
structure Sys where
  store : Store
  load : Option Load
  published : List Publication
  deriving DecidableEq, Repr

/-- No torrent, and nothing published. -/
def Sys.init : Sys := ⟨Store.empty, none, []⟩

/-- The statements of `load_manifest` and of the inventory, each of them a transaction. A load may
`abort` at any point, with the process or with an error before `fail_qbit_manifest`. -/
inductive Event where
  | change (generation : ℕ) (detectCompletions : Bool) (now : ℤ) (delta : InventoryChange)
  | finishUpdate (generation : ℕ) (attempt : Attempt)
  | request (sourceId : Id)
  | prepare (sourceId : Id)
  | stage (batch : List InventoryFile)
  | publish (now : ℤ)
  | fail (sourceId : Id)
  | abort

/-- The files of a batch have the indices from `count` on. -/
def contiguous (count : ℕ) (batch : List InventoryFile) : Prop :=
  batch.map InventoryFile.index = List.range' count batch.length

instance (count : ℕ) (batch : List InventoryFile) : Decidable (contiguous count batch) :=
  inferInstanceAs (Decidable (batch.map InventoryFile.index = List.range' count batch.length))

/-- The system after an event. -/
def Event.apply (codec : QbitCodec) (sys : Sys) : Event → Sys
  | .change generation detectCompletions now delta =>
    match projectChange codec generation detectCompletions now (sys.store, ⟨0, [], []⟩) delta with
    | .error _ => sys
    | .ok (store, _) => { sys with store }
  | .finishUpdate generation attempt =>
    match attempt.finish generation sys.store with
    | none => sys
    | some store => { sys with store }
  | .request sourceId => { sys with store := requestManifest sys.store sourceId }
  | .prepare sourceId =>
    match prepareQbitManifest sys.store sourceId with
    | .error _ => { sys with load := none }
    | .ok (store, target) => { sys with store, load := some ⟨target, []⟩ }
  | .stage batch =>
    match sys.load with
    | none => sys
    | some load =>
      if contiguous load.staged.length batch then
        match projectQbitFiles sys.store load.target batch with
        | .error _ => { sys with load := none }
        | .ok store => { sys with store, load := some { load with staged := load.staged ++ batch } }
      else { sys with load := none }
  | .publish now =>
    match sys.load with
    | none => sys
    | some load =>
      match finishQbitManifest sys.store load.target load.staged.length now with
      | .error _ => { sys with load := none }
      | .ok store =>
        { store
          load := none
          published := sys.published ++ [⟨load.target.sourceId, load.target.version, load.staged⟩] }
  | .fail sourceId => { sys with store := failQbitManifest sys.store sourceId, load := none }
  | .abort => { sys with load := none }

/-- The system after some events. -/
def run (codec : QbitCodec) (sys : Sys) (events : List Event) : Sys :=
  events.foldl (Event.apply codec) sys

/-! ### The files of a source -/

/-- The row of a file. -/
def Store.file (store : Store) (sourceId : Id) (version ordinal : ℕ) : Option SourceFileRow :=
  lookup SourceFileRow.key store.files (sourceId, version, ordinal)

/-- The row has the name and the size of the file. -/
structure Matches (row : SourceFileRow) (file : InventoryFile) : Prop where
  relativePath : row.relativePath = utf8 file.name
  displayPath : row.displayPath = file.name
  size : row.size = file.size

/-- The available files of a source are those of the publication. -/
structure Shows (store : Store) (publication : Publication) : Prop where
  indices : publication.files.map InventoryFile.index = List.range publication.files.length
  available : ∀ version ordinal row,
    Store.file store publication.sourceId version ordinal = some row →
    row.available = true →
      version = publication.version ∧ ∃ file, publication.files[ordinal]? = some file
        ∧ Matches row file
  files : ∀ ordinal file, publication.files[ordinal]? = some file →
    ∃ row, Store.file store publication.sourceId publication.version ordinal = some row
      ∧ row.available = true ∧ Matches row file

/-- The rows of the files that a load has staged. -/
structure Staged (store : Store) (load : Load) : Prop where
  torrent : ∃ row ∈ store.torrents, row.id = load.target.sourceId
    ∧ load.target.version = row.fileManifestVersion + 1 ∧ row.fileManifestState ≠ .loaded
  indices : load.staged.map InventoryFile.index = List.range load.staged.length
  files : ∀ ordinal file, load.staged[ordinal]? = some file →
    ∃ row, Store.file store load.target.sourceId load.target.version ordinal = some row
      ∧ Matches row file

/-- What holds between the statements. -/
structure Published (sys : Sys) : Prop where
  qbitIds : UniqueKey TorrentRow.qbitId sys.store.torrents
  ids : UniqueKey TorrentRow.id sys.store.torrents
  files : UniqueKey SourceFileRow.key sys.store.files
  versions : ∀ publication ∈ sys.published, ∃ row ∈ sys.store.torrents,
    row.id = publication.sourceId ∧ publication.version ≤ row.fileManifestVersion
  unique : UniqueKey (fun publication => (publication.sourceId, publication.version)) sys.published
  loaded : ∀ row ∈ sys.store.torrents, row.fileManifestState = .loaded →
    ∃ publication ∈ sys.published, publication.sourceId = row.id
      ∧ publication.version = row.fileManifestVersion ∧ Shows sys.store publication
  load : ∀ load, sys.load = some load → Staged sys.store load

/-! ### Changes of the torrents -/

/-- The row of a torrent before and after: the manifest is not published. -/
structure KeepsManifest (old new : TorrentRow) : Prop where
  id : new.id = old.id
  qbitId : new.qbitId = old.qbitId
  version : new.fileManifestVersion = old.fileManifestVersion
  loaded : new.fileManifestState = .loaded → old.fileManifestState = .loaded

theorem KeepsManifest.refl (row : TorrentRow) : KeepsManifest row row := ⟨rfl, rfl, rfl, fun h => h⟩

/-- A new row, whose manifest has not been loaded. -/
structure FreshTorrent (torrents : List TorrentRow) (new : TorrentRow) : Prop where
  id : ∀ row ∈ torrents, row.id ≠ new.id
  qbitId : ∀ row ∈ torrents, row.qbitId ≠ new.qbitId
  state : new.fileManifestState ≠ .loaded

/-- Torrents change and nothing is published. -/
theorem Published.torrents {sys sys' : Sys} (h : Published sys)
    (hfiles : sys'.store.files = sys.store.files) (hload : sys'.load = none ∨ sys'.load = sys.load)
    (hpublished : sys'.published = sys.published)
    (hevolves : Evolves KeepsManifest (FreshTorrent sys.store.torrents) sys.store.torrents
      sys'.store.torrents) : Published sys' := by
  have hfile : ∀ sourceId version ordinal, Store.file sys'.store sourceId version ordinal
      = Store.file sys.store sourceId version ordinal := by
    intro sourceId version ordinal
    rw [Store.file, Store.file, hfiles]
  have hnext : ∀ row ∈ sys.store.torrents, ∃ row' ∈ sys'.store.torrents, KeepsManifest row row' :=
    fun row hrow => hevolves.exists_next hrow
  constructor
  case qbitIds => exact hevolves.unique h.qbitIds (fun _ _ h => h.qbitId) fun _ h => h.qbitId
  case ids => exact hevolves.unique h.ids (fun _ _ h => h.id) fun _ h => h.id
  case files => rw [hfiles]; exact h.files
  case versions =>
    rw [hpublished]
    intro publication hmem
    obtain ⟨row, hrow, hid, hversion⟩ := h.versions publication hmem
    obtain ⟨row', hrow', hkeeps⟩ := hnext row hrow
    exact ⟨row', hrow', hkeeps.id.trans hid, hkeeps.version ▸ hversion⟩
  case unique => rw [hpublished]; exact h.unique
  case loaded =>
    rw [hpublished]
    intro row' hrow' hloaded
    rcases hevolves.exists_prev hrow' with ⟨row, hrow, hkeeps⟩ | hfresh
    · obtain ⟨publication, hmem, hid, hversion, hshows⟩ := h.loaded row hrow (hkeeps.loaded hloaded)
      refine ⟨publication, hmem, hid.trans hkeeps.id.symm, hversion.trans hkeeps.version.symm, ?_⟩
      obtain ⟨hindices, havailable, hshown⟩ := hshows
      exact ⟨hindices, by simpa only [hfile] using havailable, by simpa only [hfile] using hshown⟩
    · exact absurd hloaded hfresh.state
  case load =>
    intro load hsome
    rcases hload with hnone | hsame
    · rw [hnone] at hsome
      cases hsome
    · obtain ⟨⟨row, hrow, hid, hversion, hstate⟩, hindices, hstaged⟩ := h.load load (hsame ▸ hsome)
      obtain ⟨row', hrow', hkeeps⟩ := hnext row hrow
      exact ⟨⟨row', hrow', hkeeps.id.trans hid, by rw [hversion, hkeeps.version],
        fun hloaded => hstate (hkeeps.loaded hloaded)⟩,
          hindices, by simpa only [hfile] using hstaged⟩

section

variable {codec : QbitCodec} {store store' : Store}

/-- The state of the manifest after a record. -/
theorem row_fileManifestState (fields : Fields) (existing : Option TorrentRow) (qbitId : String)
    (delta : InventoryDelta) (generation : ℕ) (detectCompletions : Bool) (now : ℤ)
    (h : (fields.row codec existing qbitId delta generation detectCompletions now).fileManifestState
      = .loaded) : existing.map TorrentRow.fileManifestState = some .loaded := by
  rw [Fields.row] at h
  dsimp only at h
  split_ifs at h
  cases existing with
  | none => cases h
  | some old => exact congrArg some h

/-- **A change of the inventory** does not publish a manifest and does not touch the files. -/
theorem evolves_projectChange {batch batch' : ProjectionBatch}
    {change : InventoryChange} {generation : ℕ} {detectCompletions : Bool} {now : ℤ}
    (hunique : UniqueKey TorrentRow.qbitId store.torrents)
    (h : projectChange codec generation detectCompletions now (store, batch) change
      = .ok (store', batch')) :
    Evolves KeepsManifest (FreshTorrent store.torrents) store.torrents store'.torrents
      ∧ store'.files = store.files := by
  cases change with
  | removed changed =>
    obtain ⟨rfl, -⟩ : removeTorrent store changed now = store' ∧ _ := by
      simpa [projectChange] using h
    refine ⟨evolves_map fun row _ => ?_, rfl⟩
    split
    · exact ⟨rfl, rfl, rfl, fun h => h⟩
    · exact .refl row
  | upsert changed delta =>
    obtain ⟨⟨store₁, completion, manifestNeeded⟩, hproject, h⟩ := bind_eq_ok.mp h
    obtain ⟨rfl, -⟩ : store₁ = store' ∧ _ := by simpa [pure, Except.pure] using h
    obtain ⟨fields, torrents, -, hupsert, hresult⟩ := projectTorrent_eq_ok hproject
    have hstore : store₁.torrents = torrents ∧ store₁.files = store.files := by
      rcases hresult with ⟨-, rfl⟩ | ⟨completedAt, accepted, -, haccept⟩
      · exact ⟨rfl, rfl⟩
      · obtain ⟨outbox, completions, inserted, -, -, rfl⟩ := accept_eq_some haccept
        exact ⟨rfl, rfl⟩
    refine ⟨?_, hstore.2⟩
    rw [hstore.1]
    rcases (upsertTorrent_eq_some hupsert).2 with ⟨-, rfl⟩ | ⟨hnew, hid, rfl⟩
    · refine evolves_map fun row hrow => ?_
      split
      · rename_i heq
        have hexisting : store.torrent changed = some row :=
          UniqueKey.lookup_of_mem hunique hrow heq
        refine ⟨rfl, heq.symm, rfl, fun hloaded => ?_⟩
        have hstate := row_fileManifestState fields (store.torrent changed) changed delta generation
          detectCompletions now hloaded
        rw [hexisting] at hstate
        exact Option.some_inj.mp hstate
      · exact .refl row
    · refine evolves_append (fun row _ => .refl row) ⟨lookup_eq_none.mp hid,
        lookup_eq_none.mp hnew, ?_⟩
      intro hloaded
      have hstate := row_fileManifestState fields (store.torrent changed) changed delta generation
        detectCompletions now hloaded
      rw [show store.torrent changed = none from hnew] at hstate
      cases hstate

theorem evolves_finish {generation : ℕ} {attempt : Attempt}
    (h : attempt.finish generation store = some store') :
    Evolves KeepsManifest (FreshTorrent store.torrents) store.torrents store'.torrents
      ∧ store'.files = store.files := by
  obtain ⟨inventory, rfl, -⟩ := Attempt.finish_eq_some h
  split
  · refine ⟨evolves_map (g := sweptRow generation attempt.now) fun row _ => ?_, rfl⟩
    unfold sweptRow
    split
    · exact ⟨rfl, rfl, rfl, fun h => h⟩
    · exact .refl row
  · exact ⟨evolves_refl fun row _ => .refl row, rfl⟩

/-- An update of one torrent that does not publish its manifest. -/
theorem evolves_updateTorrent {sourceId : Id} {f : TorrentRow → TorrentRow}
    (hf : ∀ row, KeepsManifest row (f row)) :
    Evolves KeepsManifest (FreshTorrent store.torrents) store.torrents
      (store.updateTorrent sourceId f).torrents := by
  refine evolves_map fun row _ => ?_
  split
  · exact hf row
  · exact .refl row

theorem evolves_requestManifest (sourceId : Id) :
    Evolves KeepsManifest (FreshTorrent store.torrents) store.torrents
      (requestManifest store sourceId).torrents := by
  refine evolves_updateTorrent fun row => ?_
  split
  · exact ⟨rfl, rfl, rfl, fun h => by cases h⟩
  · exact .refl row

theorem evolves_failQbitManifest (sourceId : Id) :
    Evolves KeepsManifest (FreshTorrent store.torrents) store.torrents
      (failQbitManifest store sourceId).torrents :=
  evolves_updateTorrent fun _ => ⟨rfl, rfl, rfl, fun h => by cases h⟩

end

/-! ### Files -/

section

variable {store store' : Store}

theorem stagedFile_key (target : ManifestTarget) (file : InventoryFile) :
    (stagedFile target file).key = (target.sourceId, target.version, file.index) := rfl

theorem restage_key (new old : SourceFileRow) : (restage new old).key = old.key := rfl

theorem matches_stagedFile (target : ManifestTarget) (file : InventoryFile) (id : ℕ) :
    Matches { stagedFile target file with id } file := ⟨rfl, rfl, rfl⟩

theorem matches_restage (target : ManifestTarget) (file : InventoryFile) (old : SourceFileRow) :
    Matches (restage (stagedFile target file) old) file := ⟨rfl, rfl, rfl⟩

/-- The columns that tell which file a row is. -/
theorem file_key {sourceId : Id} {version ordinal : ℕ} {row : SourceFileRow}
    (h : Store.file store sourceId version ordinal = some row) :
    row.sourceId = sourceId ∧ row.manifestVersion = version ∧ row.ordinal = ordinal := by
  have hkey := (lookup_eq_some_mem h).2
  simpa [SourceFileRow.key] using hkey

/-- The row of a file after the availability of some files has been set. -/
theorem lookup_setAvailable (files : List SourceFileRow) (sourceId : Id) (p : SourceFileRow → Bool)
    (available : Bool) (key : Id × ℕ × ℕ) :
    lookup SourceFileRow.key (setAvailable files sourceId p available) key
      = (lookup SourceFileRow.key files key).map fun row =>
        if row.sourceId = sourceId ∧ p row then { row with available } else row := by
  refine lookup_map (fun row => ?_) files key
  split <;> rfl

/-- The files of other sources keep their availability. -/
theorem lookup_setAvailable_of_ne (files : List SourceFileRow) {sourceId : Id}
    (p : SourceFileRow → Bool) (available : Bool) {key : Id × ℕ × ℕ} (hne : key.1 ≠ sourceId) :
    lookup SourceFileRow.key (setAvailable files sourceId p available) key
      = lookup SourceFileRow.key files key := by
  rw [lookup_setAvailable]
  cases h : lookup SourceFileRow.key files key with
  | none => rfl
  | some row =>
    have hkey := (lookup_eq_some_mem h).2
    rw [Option.map_some, if_neg]
    rintro ⟨hid, -⟩
    exact hne (by rw [← hkey]; exact hid)

theorem unique_setAvailable {files : List SourceFileRow} (sourceId : Id) (p : SourceFileRow → Bool)
    (available : Bool) (hunique : UniqueKey SourceFileRow.key files) :
    UniqueKey SourceFileRow.key (setAvailable files sourceId p available) := by
  rw [UniqueKey, setAvailable, List.map_map]
  have hkey : SourceFileRow.key ∘ (fun row : SourceFileRow =>
      if row.sourceId = sourceId ∧ p row then { row with available } else row) =
        SourceFileRow.key := by
    funext row
    simp only [Function.comp]
    split <;> rfl
  rw [hkey]
  exact hunique

/-- What a batch of files stages: the files that it names, and no others. -/
structure StagesFiles (target : ManifestTarget) (batch : List InventoryFile)
    (files files' : List SourceFileRow) : Prop where
  unique : UniqueKey SourceFileRow.key files → UniqueKey SourceFileRow.key files'
  others : ∀ key, (∀ file ∈ batch, key ≠ (target.sourceId, target.version, file.index)) →
    lookup SourceFileRow.key files' key = lookup SourceFileRow.key files key
  staged : (batch.map InventoryFile.index).Nodup → ∀ file ∈ batch,
    ∃ row, lookup SourceFileRow.key files' (target.sourceId, target.version, file.index) = some row
      ∧ Matches row file

/-- **The files of a batch.** -/
theorem stagesFiles_foldlM {target : ManifestTarget} {batch : List InventoryFile}
    {files files' : List SourceFileRow} (h : batch.foldlM (stageFile target) files = .ok files') :
    StagesFiles target batch files files' := by
  have hfold := foldlM_invariant (f := stageFile target)
    (P := fun done result => StagesFiles target done files result)
        (fun done file before after hdone hstage => by
      unfold stageFile at hstage
      obtain ⟨index, -, hstage⟩ := bind_eq_ok.mp hstage
      obtain ⟨size, -, hstage⟩ := bind_eq_ok.mp hstage
      obtain rfl : upsertFile before (stagedFile target file) (restage (stagedFile target file)) =
          after :=
        Except.ok.inj hstage
      have hlookup := lookup_upsertFile before (stagedFile target file)
        (restage_key (stagedFile target file))
      rw [stagedFile_key] at hlookup
      refine ⟨fun hunique => unique_upsertFile (restage_key _) (hdone.unique hunique),
        fun key hkey => ?_, fun hnodup other hother => ?_⟩
      · rw [hlookup, if_neg (hkey file (by simp))]
        exact hdone.others key fun other hother => hkey other (by simp [hother])
      · rw [List.map_append, List.map_singleton] at hnodup
        rcases List.mem_append.mp hother with hother | hother
        · -- A file that was staged before has another index.
          have hne : other.index ≠ file.index := fun heq =>
            (List.nodup_append.mp hnodup).2.2 other.index (List.mem_map_of_mem hother) file.index
              (by simp) heq
          obtain ⟨row, hrow, hmatches⟩ := hdone.staged (List.nodup_append.mp hnodup).1 other hother
          refine ⟨row, ?_, hmatches⟩
          rw [hlookup, if_neg (by simpa using hne), hrow]
        · obtain rfl := List.mem_singleton.mp hother
          rw [hlookup, if_pos rfl]
          cases lookup SourceFileRow.key before (target.sourceId, target.version, other.index) with
          | none => exact ⟨_, rfl, matches_stagedFile target other _⟩
          | some old => exact ⟨_, rfl, matches_restage target other old⟩)
    batch [] files files' ⟨fun h => h, fun _ _ => rfl, fun _ file hfile => by cases hfile⟩ h
  simpa using hfold

theorem Shows.of_file {publication : Publication} (h : Shows store publication)
    (hfile : ∀ version ordinal, Store.file store' publication.sourceId version ordinal
      = Store.file store publication.sourceId version ordinal) : Shows store' publication := by
  obtain ⟨hindices, havailable, hfiles⟩ := h
  exact ⟨hindices, by simpa only [hfile] using havailable, by simpa only [hfile] using hfiles⟩

end

/-! ### The statements of a load -/

section

variable {codec : QbitCodec} {sys : Sys}

/-- The row of the torrent that a load is of. -/
theorem Published.eq_of_id (h : Published sys) {row row' : TorrentRow}
    (hrow : row ∈ sys.store.torrents) (hrow' : row' ∈ sys.store.torrents)
    (hid : row.id = row'.id) : row = row' :=
  List.inj_on_of_nodup_map h.ids hrow hrow' hid

/-- **Preparation** leaves the torrent not loaded, and nothing staged. -/
theorem Published.prepare (h : Published sys) (sourceId : Id) :
    Published (Event.apply codec sys (.prepare sourceId)) := by
  simp only [Event.apply]
  cases hprepare : prepareQbitManifest sys.store sourceId with
  | error e => exact h.torrents rfl (.inl rfl) rfl (evolves_refl fun row _ => .refl row)
  | ok result =>
    obtain ⟨store, target⟩ := result
    obtain ⟨row, hrow, hid, -, rfl, rfl⟩ := prepareQbitManifest_eq_ok hprepare
    -- The torrents change first; then files of the torrent, which is not loaded.
    have hloading : Published { sys with
        store := sys.store.updateTorrent sourceId fun row =>
          { row with fileManifestState := .loading }
        load := none } :=
      h.torrents rfl (.inl rfl) rfl
        (evolves_updateTorrent fun row => ⟨rfl, rfl, rfl, fun h => by cases h⟩)
    refine ⟨hloading.qbitIds, hloading.ids, unique_setAvailable _ _ _ hloading.files,
      hloading.versions, hloading.unique, fun row' hrow' hloaded => ?_, fun load hload => ?_⟩
    · obtain ⟨publication, hmem, hid', hversion', hshows⟩ := hloading.loaded row' hrow' hloaded
      refine ⟨publication, hmem, hid', hversion', hshows.of_file fun version ordinal => ?_⟩
      refine lookup_setAvailable_of_ne _ _ _ ?_
      rw [hid']
      rintro rfl
      obtain ⟨old, -, hold⟩ := mem_updateKey.mp hrow'
      split at hold
      · rw [hold] at hloaded
        cases hloaded
      · rename_i hne
        rw [hold] at hne
        exact hne rfl
    · obtain rfl := Option.some_inj.mp hload
      refine ⟨⟨{ row with fileManifestState := .loading }, ?_, hid, rfl, by simp⟩, rfl, by simp⟩
      exact mem_updateKey.mpr ⟨row, hrow, (if_pos hid).symm⟩

/-- **Staging** writes files of a version that is not published. -/
theorem Published.stage (h : Published sys) (batch : List InventoryFile) :
    Published (Event.apply codec sys (.stage batch)) := by
  have hnone : Published { sys with load := none } :=
    h.torrents rfl (.inl rfl) rfl (evolves_refl fun row _ => .refl row)
  simp only [Event.apply]
  cases hload : sys.load with
  | none => exact h
  | some load =>
    simp only
    split
    · rename_i hcontiguous
      cases hproject : projectQbitFiles sys.store load.target batch with
      | error e => exact hnone
      | ok store =>
        obtain ⟨files, hfiles, rfl⟩ := projectQbitFiles_eq_ok hproject
        obtain ⟨⟨row, hrow, hid, hversion, hstate⟩, hindices, hstaged⟩ := h.load load hload
        have hstages := stagesFiles_foldlM hfiles
        have hnodup : (batch.map InventoryFile.index).Nodup := by
          rw [hcontiguous]
          exact List.nodup_range'
        refine ⟨h.qbitIds, h.ids, hstages.unique h.files, h.versions, h.unique,
          fun row' hrow' hloaded => ?_, fun load' hload' => ?_⟩
        · obtain ⟨publication, hmem, hid', hversion', hshows⟩ := h.loaded row' hrow' hloaded
          refine ⟨publication, hmem, hid', hversion', hshows.of_file fun version ordinal => ?_⟩
          refine hstages.others _ fun file _ heq => ?_
          have hsource : row'.id = row.id := hid'.symm.trans ((Prod.mk.inj heq).1.trans hid.symm)
          exact hstate (h.eq_of_id hrow' hrow hsource ▸ hloaded)
        · obtain rfl := Option.some_inj.mp hload'
          refine ⟨⟨row, hrow, hid, hversion, hstate⟩, ?_, fun ordinal file hfile => ?_⟩
          · have happend : List.range' 0 load.staged.length
                ++ List.range' (0 + load.staged.length) batch.length = _ := List.range'_append_1
            rw [Nat.zero_add] at happend
            rw [List.map_append, hindices, hcontiguous, List.length_append, List.range_eq_range',
              List.range_eq_range', happend]
          · rcases lt_or_ge ordinal load.staged.length with hlt | hge
            · rw [List.getElem?_append_left hlt] at hfile
              obtain ⟨old, hold, hmatches⟩ := hstaged ordinal file hfile
              refine ⟨old, (hstages.others _ fun other hother heq => ?_).trans hold, hmatches⟩
              -- The indices of the batch follow those of the staged files.
              have hindex : other.index ∈ batch.map InventoryFile.index :=
                List.mem_map_of_mem hother
              rw [hcontiguous, List.mem_range'_1] at hindex
              have hordinal : ordinal = other.index := by simpa using heq
              omega
            · rw [List.getElem?_append_right hge] at hfile
              have hindex : file.index = ordinal := by
                have hat := congrArg (·[ordinal - load.staged.length]?) hcontiguous
                simp only [List.getElem?_map, hfile, Option.map_some] at hat
                obtain ⟨hlength, heq⟩ := List.getElem?_eq_some_iff.mp hat.symm
                rw [List.getElem_range'] at heq
                omega
              obtain ⟨new, hnew, hmatches⟩ :=
                hstages.staged hnodup file (List.mem_of_getElem? hfile)
              exact ⟨new, by rw [← hindex]; exact hnew, hmatches⟩
    · exact hnone

/-- The files of the source after a publication: those of its version up to the count are available.
-/
theorem lookup_published (files : List SourceFileRow) (sourceId : Id)
    (version count version' ordinal : ℕ) :
    lookup SourceFileRow.key (setAvailable (setAvailable files sourceId
      (fun _ => true) false) sourceId
        (fun row => row.manifestVersion = version ∧ row.ordinal < count) true)
        (sourceId, version', ordinal)
      = (lookup SourceFileRow.key files (sourceId, version', ordinal)).map fun row =>
        { row with available := version' = version ∧ ordinal < count } := by
  rw [lookup_setAvailable, lookup_setAvailable, Option.map_map]
  cases h : lookup SourceFileRow.key files (sourceId, version', ordinal) with
  | none => rfl
  | some row =>
    have hkey : row.key = (sourceId, version', ordinal) := (lookup_eq_some_mem h).2
    obtain ⟨rfl, rfl, rfl⟩ : row.sourceId = sourceId ∧ row.manifestVersion = version'
        ∧ row.ordinal = ordinal := by
      simpa [SourceFileRow.key] using hkey
    by_cases hcondition : row.manifestVersion = version ∧ row.ordinal < count <;> simp [hcondition]

/-- **Publication** shows the files that the load has staged. -/
theorem Published.publish (h : Published sys) (now : ℤ) :
    Published (Event.apply codec sys (.publish now)) := by
  simp only [Event.apply]
  cases hload : sys.load with
  | none => exact h
  | some load =>
    simp only
    cases hfinish : finishQbitManifest sys.store load.target load.staged.length now with
    | error e => exact h.torrents rfl (.inl rfl) rfl (evolves_refl fun row _ => .refl row)
    | ok store =>
      obtain rfl := finishQbitManifest_eq_ok hfinish
      obtain ⟨⟨row, hrow, hid, hversion, -⟩, hindices, hstaged⟩ := h.load load hload
      have hfile := lookup_published sys.store.files load.target.sourceId load.target.version
        load.staged.length
      refine ⟨?_, ?_, unique_setAvailable _ _ _ (unique_setAvailable _ _ _ h.files), ?_, ?_, ?_, ?_⟩
      · exact UniqueKey.of_map_eq
          (map_updateKey (publishedRow_qbitId load.target.version now)
            load.target.sourceId) h.qbitIds
      · exact UniqueKey.of_map_eq
          (map_updateKey (publishedRow_id load.target.version now) load.target.sourceId) h.ids
      · intro publication hmem
        rcases List.mem_append.mp hmem with hmem | hmem
        · obtain ⟨old, hold, hid', hle⟩ := h.versions publication hmem
          by_cases hsource : old.id = load.target.sourceId
          · refine ⟨_, mem_updateKey.mpr ⟨old, hold, (if_pos hsource).symm⟩, hid', ?_⟩
            rw [h.eq_of_id hold hrow (hsource.trans hid.symm)] at hle
            exact hle.trans (by rw [hversion]; exact Nat.le_succ _)
          · exact ⟨_, mem_updateKey.mpr ⟨old, hold, (if_neg hsource).symm⟩, hid', hle⟩
        · obtain rfl := List.mem_singleton.mp hmem
          exact ⟨_, mem_updateKey.mpr ⟨row, hrow, (if_pos hid).symm⟩, hid, le_rfl⟩
      · refine unique_append h.unique (lookup_eq_none.mpr fun publication hmem heq => ?_)
        obtain ⟨hsource, hsame⟩ := Prod.mk.inj heq
        obtain ⟨old, hold, hid', hle⟩ := h.versions publication hmem
        rw [h.eq_of_id hold hrow (hid'.trans (hsource.trans hid.symm)), hsame] at hle
        dsimp only at hle
        omega
      · intro row' hrow' hloaded
        obtain ⟨old, hold, hrow'⟩ := mem_updateKey.mp hrow'
        by_cases hsource : old.id = load.target.sourceId
        · rw [if_pos hsource] at hrow'
          subst hrow'
          refine ⟨_, List.mem_append_right _ (List.mem_singleton.mpr rfl),
            hsource.symm, rfl, hindices, fun version ordinal new hnew havailable => ?_,
            fun ordinal file hget => ?_⟩
          · rw [Store.file, hfile] at hnew
            obtain ⟨old', hold', rfl⟩ := Option.map_eq_some_iff.mp hnew
            obtain ⟨rfl, hlt⟩ := of_decide_eq_true havailable
            refine ⟨rfl, load.staged[ordinal], List.getElem?_eq_getElem hlt, ?_⟩
            obtain ⟨row', hrow', hmatches⟩ := hstaged ordinal _ (List.getElem?_eq_getElem hlt)
            obtain rfl : row' = old' := Option.some_inj.mp (hrow'.symm.trans hold')
            exact ⟨hmatches.1, hmatches.2, hmatches.3⟩
          · obtain ⟨old', hold', hmatches⟩ := hstaged ordinal file hget
            have hlt := (List.getElem?_eq_some_iff.mp hget).1
            have hnew := hfile load.target.version ordinal
            rw [show lookup SourceFileRow.key _ _ = some old' from hold', Option.map_some] at hnew
            exact ⟨_, hnew, by simpa using hlt, hmatches.1, hmatches.2, hmatches.3⟩
        · rw [if_neg hsource] at hrow'
          subst hrow'
          obtain ⟨publication, hmem, hid', hversion', hshows⟩ := h.loaded row' hold hloaded
          refine ⟨publication, List.mem_append_left _ hmem, hid', hversion',
            hshows.of_file fun version ordinal => ?_⟩
          have hne : publication.sourceId ≠ load.target.sourceId := hid' ▸ hsource
          exact (lookup_setAvailable_of_ne _ _ _ hne).trans (lookup_setAvailable_of_ne _ _ _ hne)
      · intro load' hload'
        cases hload'

/-- **One statement.** -/
theorem Published.apply (h : Published sys) (event : Event) :
    Published (event.apply codec sys) := by
  cases event with
  | change generation detectCompletions now delta =>
    simp only [Event.apply]
    cases hchange : projectChange codec generation detectCompletions now (sys.store,
      ⟨0, [], []⟩) delta with
    | error e => exact h
    | ok result =>
      obtain ⟨hevolves, hfiles⟩ := evolves_projectChange h.qbitIds hchange
      exact h.torrents hfiles (.inr rfl) rfl hevolves
  | finishUpdate generation attempt =>
    simp only [Event.apply]
    cases hfinish : attempt.finish generation sys.store with
    | none => exact h
    | some store =>
      obtain ⟨hevolves, hfiles⟩ := evolves_finish hfinish
      exact h.torrents hfiles (.inr rfl) rfl hevolves
  | request sourceId => exact h.torrents rfl (.inr rfl) rfl (evolves_requestManifest sourceId)
  | prepare sourceId => exact h.prepare sourceId
  | stage batch => exact h.stage batch
  | publish now => exact h.publish now
  | fail sourceId => exact h.torrents rfl (.inl rfl) rfl (evolves_failQbitManifest sourceId)
  | abort => exact h.torrents rfl (.inl rfl) rfl (evolves_refl fun row _ => .refl row)

theorem published_init : Published Sys.init := by
  constructor <;> simp [Sys.init, Store.empty, UniqueKey]

/-- **Any run** keeps the publications. -/
theorem published_run (codec : QbitCodec) (events : List Event) :
    Published (run codec Sys.init events) := by
  have hrun : ∀ (events : List Event) (sys : Sys), Published sys →
      Published (run codec sys events) := by
    intro events
    induction events with
    | nil => exact fun sys h => h
    | cons event events ih => exact fun sys h => ih _ (h.apply event)
  exact hrun events Sys.init published_init

end

/-! ### The available files -/

/-- What a row says of its file. -/
structure FileFacts where
  version : ℕ
  ordinal : ℕ
  relativePath : Bytes
  displayPath : String
  size : ℕ
  deriving DecidableEq, Repr

/-- What a row says of its file. -/
def rowFacts (row : SourceFileRow) : FileFacts :=
  ⟨row.manifestVersion, row.ordinal, row.relativePath, row.displayPath, row.size⟩

/-- What the rows of a file list say, the file at each place with the place as its ordinal. -/
def listFacts (version : ℕ) (files : List InventoryFile) : List FileFacts :=
  files.mapIdx fun ordinal file => ⟨version, ordinal, utf8 file.name, file.name, file.size⟩

/-- The available files of a source. -/
def availableFiles (store : Store) (sourceId : Id) : List SourceFileRow :=
  store.files.filter fun row => row.sourceId = sourceId ∧ row.available

/-- The available files of a source that shows a publication are its files, each of them once. -/
theorem Shows.perm {store : Store} {publication : Publication}
    (hunique : UniqueKey SourceFileRow.key store.files) (h : Shows store publication) :
    ((availableFiles store publication.sourceId).map rowFacts).Perm
      (listFacts publication.version publication.files) := by
  have hrows : ∀ row ∈ availableFiles store publication.sourceId,
      row.manifestVersion = publication.version
        ∧ ∃ file, publication.files[row.ordinal]? = some file ∧ Matches row file := by
    intro row hrow
    obtain ⟨hmem, hcondition⟩ := List.mem_filter.mp hrow
    obtain ⟨hsource, havailable⟩ := of_decide_eq_true hcondition
    refine h.available row.manifestVersion row.ordinal row ?_ havailable
    rw [← hsource]
    exact UniqueKey.lookup_of_mem hunique hmem rfl
  have hnodup : ((availableFiles store publication.sourceId).map rowFacts).Nodup := by
    refine List.Nodup.map_on (fun a ha b hb heq => ?_) ((List.Nodup.of_map _ hunique).filter _)
    obtain ⟨ha, hacondition⟩ := List.mem_filter.mp ha
    obtain ⟨hb, hbcondition⟩ := List.mem_filter.mp hb
    refine List.inj_on_of_nodup_map hunique ha hb ?_
    obtain ⟨hversion, hordinal, -⟩ := FileFacts.mk.inj heq
    rw [SourceFileRow.key, SourceFileRow.key, hversion, hordinal, (of_decide_eq_true hacondition).1,
      (of_decide_eq_true hbcondition).1]
  have hnodup' : (listFacts publication.version publication.files).Nodup := by
    have hordinals : (listFacts publication.version publication.files).map FileFacts.ordinal
        = List.range publication.files.length := by
      refine List.ext_getElem (by simp [listFacts]) fun ordinal _ _ => ?_
      simp [listFacts]
    exact List.Nodup.of_map FileFacts.ordinal (hordinals ▸ List.nodup_range)
  refine (List.perm_ext_iff_of_nodup hnodup hnodup').mpr fun facts => ?_
  rw [List.mem_map, listFacts, List.mem_mapIdx]
  constructor
  · rintro ⟨row, hrow, rfl⟩
    obtain ⟨hversion, file, hfile, hmatches⟩ := hrows row hrow
    obtain ⟨hlength, rfl⟩ := List.getElem?_eq_some_iff.mp hfile
    refine ⟨row.ordinal, hlength, ?_⟩
    rw [rowFacts, hversion, hmatches.relativePath, hmatches.displayPath, hmatches.size]
  · rintro ⟨ordinal, hlength, rfl⟩
    obtain ⟨row, hrow, havailable, hmatches⟩ :=
      h.files ordinal _ (List.getElem?_eq_getElem hlength)
    obtain ⟨hsource, hversion, hordinal⟩ := file_key hrow
    refine ⟨row, List.mem_filter.mpr ⟨(lookup_eq_some_mem hrow).1,
      decide_eq_true ⟨hsource, havailable⟩⟩, ?_⟩
    rw [rowFacts, hversion, hordinal, hmatches.relativePath, hmatches.displayPath, hmatches.size]

/-- **Manifests.** Whatever the loads and the inventory have done, a torrent whose manifest is
loaded has as its available files those of the one load that published its version, the file at each
place with the place as its ordinal, and no others. -/
theorem manifest_published (codec : QbitCodec) (events : List Event) :
    ∀ row ∈ (run codec Sys.init events).store.torrents, row.fileManifestState = .loaded →
      ∃ files, (∀ files', ⟨row.id, row.fileManifestVersion,
        files'⟩ ∈ (run codec Sys.init events).published
          ↔ files' = files)
        ∧ files.map InventoryFile.index = List.range files.length
        ∧ ((availableFiles (run codec Sys.init events).store row.id).map rowFacts).Perm
          (listFacts row.fileManifestVersion files) := by
  intro row hrow hloaded
  have hpublished := published_run codec events
  obtain ⟨publication, hmem, hid, hversion, hshows⟩ := hpublished.loaded row hrow hloaded
  refine ⟨publication.files, fun files' => ⟨fun hmem' => ?_, ?_⟩, hshows.indices, ?_⟩
  · have heq : (⟨row.id, row.fileManifestVersion, files'⟩ : Publication) = publication :=
      List.inj_on_of_nodup_map hpublished.unique hmem' hmem (by rw [hid, hversion])
    exact congrArg Publication.files heq
  · rintro rfl
    rw [← hid, ← hversion]
    exact hmem
  · rw [← hid, ← hversion]
    exact hshows.perm hpublished.files

/-- A torrent whose first load has been aborted after a batch, and whose second one publishes two
files. -/
def reloadedEvents : List Event :=
  let id := sourceId QbitCodec.ascii downloadingTorrent.hash
  [.change 1 true 10 downloadingTorrent.change, .prepare id,
    .stage [⟨0, "Film.2020.mkv", 10⟩], .abort,
    .prepare id, .stage [⟨0, "Film.2020.mkv", 90⟩], .stage [⟨1, "Film.2020.srt", 10⟩], .publish 20]

theorem manifest_published_reloaded :
    let sys := run QbitCodec.ascii Sys.init reloadedEvents
    ∃ row ∈ sys.store.torrents, row.fileManifestState = .loaded
      ∧ ∃ files, (∀ files', ⟨row.id, row.fileManifestVersion, files'⟩ ∈ sys.published
        ↔ files' = files)
        ∧ files.map InventoryFile.index = List.range files.length
        ∧ ((availableFiles sys.store row.id).map rowFacts).Perm
          (listFacts row.fileManifestVersion files) := by
  have hloaded : ∃ row ∈ (run QbitCodec.ascii Sys.init reloadedEvents).store.torrents,
      row.fileManifestState = .loaded := by decide +kernel
  obtain ⟨row, hrow, hloaded⟩ := hloaded
  exact ⟨row, hrow, hloaded, manifest_published QbitCodec.ascii reloadedEvents row hrow hloaded⟩

end Sporos.Service.Manifest
