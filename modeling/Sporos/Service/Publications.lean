import Sporos.Service.DataScan
import Sporos.Service.Manifest

/-! # Publications

The loads of manifests and the data scans publish files: a load the files of a torrent, with a new
version, and a page of a scan those of the releases it finds, with the generation of the scan. What
has been published is a log, and the available files of a source are those of its last entry in the
log (`shows_run`). -/

namespace Sporos.Service.Publications

open Sporos.Service.Tables
open Sporos.Service.Inventory
open Sporos.Service.Sources
open Sporos.Service.QbitProjection
open Sporos.Service.DataTree
open Sporos.Service.DataScan
open Sporos.Service.Manifest (Published Publication KeepsManifest FreshTorrent)
open Sporos.Lib.Table
open Sporos.Lib.Loop

/-! ### The log -/

/-- A file as it is published. -/
structure PublishedFile where
  displayPath : String
  localPath : Option String
  size : ℕ
  device : Option ℕ
  inode : Option ℕ
  deriving DecidableEq, Repr

/-- A publication: the files of a version of a source, in their order. -/
structure Entry where
  sourceId : Id
  version : ℕ
  files : List PublishedFile
  deriving DecidableEq, Repr

/-- A file of a torrent, of which no place is known. -/
def inventoryFile (file : InventoryFile) : PublishedFile := ⟨file.name, none, file.size, none, none⟩

/-- The entry of a manifest that is published. -/
def publicationEntry (publication : Publication) : Entry :=
  ⟨publication.sourceId, publication.version, publication.files.map inventoryFile⟩

/-- A file of a release. -/
def releasedFile (file : ScannedFile) : PublishedFile :=
  ⟨file.displayPath, some file.localPath, file.size, some file.device, some file.inode⟩

/-- The entry of a release. -/
def releaseEntry (codec : ScanCodec) (input : ScanInput) (release : ScannedRelease) : Entry :=
  ⟨dataSourceId codec input.rootName release.relativePath, input.generation,
    release.files.map releasedFile⟩

/-- The entries that an effect of a scan adds. -/
def effectEntries (codec : ScanCodec) : Effect → List Entry
  | .stamped input releases => releases.map (releaseEntry codec input)
  | .swept _ => []
  | .hidden _ => []

/-- What the row of a file says about the file. -/
def rowFile (row : SourceFileRow) : PublishedFile :=
  ⟨row.displayPath, row.localPath, row.size, row.device, row.inode⟩

/-- The last publication of a source. -/
def current (log : List Entry) (sourceId : Id) : Option Entry :=
  (log.filter fun entry => entry.sourceId = sourceId).getLast?

theorem current_append (log : List Entry) (entry : Entry) (sourceId : Id) :
    current (log ++ [entry]) sourceId
      = if entry.sourceId = sourceId then some entry else current log sourceId := by
  unfold current
  rw [List.filter_append, List.filter_cons, List.filter_nil]
  split <;> simp_all

theorem current_mem {log : List Entry} {sourceId : Id} {entry : Entry}
    (h : current log sourceId = some entry) : entry ∈ log ∧ entry.sourceId = sourceId := by
  obtain ⟨hmem, hsource⟩ := List.mem_filter.mp (List.mem_of_getLast? h)
  exact ⟨hmem, of_decide_eq_true hsource⟩

theorem current_eq_none {log : List Entry} {sourceId : Id} :
    current log sourceId = none ↔ ∀ entry ∈ log, entry.sourceId ≠ sourceId := by
  simp [current]

/-! ### Loads and scans side by side -/

/-- The torrents with the load that is going on, the scans, and the log. -/
structure World where
  sys : Manifest.Sys
  scans : Scans
  log : List Entry

/-- The tables. -/
def World.store (world : World) : Store := world.sys.store

/-- Nothing is published. -/
def World.init : World := ⟨.init, .init, []⟩

/-- An event of the manifests or of the scans. -/
inductive Event where
  | manifest (event : Manifest.Event)
  | scan (event : DataScan.Event)

section

variable (codec : QbitCodec) (scanCodec : ScanCodec) (roots : String → Option DataRoot)

/-- The state after an event. -/
def Event.apply (world : World) : Event → World
  | .manifest event =>
    let sys := event.apply codec world.sys
    { world with
      sys
      log := world.log ++ (sys.published.drop world.sys.published.length).map publicationEntry }
  | .scan event =>
    let (store, scans) := event.apply scanCodec roots (world.sys.store, world.scans)
    { sys := { world.sys with store }
      scans
      log :=
        world.log ++ (scans.effects.drop world.scans.effects.length).flatMap
          (effectEntries scanCodec) }

/-- The state after some events. -/
def run (world : World) (events : List Event) : World :=
  events.foldl (Event.apply codec scanCodec roots) world

end

/-- The hashes that name the torrents and the sources of the data roots do not collide. -/
def IdsApart (store : Store) : Prop :=
  ∀ row ∈ store.torrents, ∀ source ∈ store.dataSources, row.id ≠ source.id

instance (store : Store) : Decidable (IdsApart store) :=
  inferInstanceAs (Decidable (∀ row ∈ store.torrents, ∀ source ∈ store.dataSources,
    row.id ≠ source.id))

/-! ### What holds between the statements -/

/-- The available files of a source are those of an entry. -/
structure Shows (files : List SourceFileRow) (sourceId : Id) (entry : Option Entry) : Prop where
  available : ∀ version ordinal row, lookup SourceFileRow.key files (sourceId, version,
    ordinal) = some row →
    row.available = true → ∃ e, entry = some e ∧ version = e.version ∧ ordinal < e.files.length
  files : ∀ e, entry = some e → ∀ ordinal file, e.files[ordinal]? = some file →
    ∃ row, lookup SourceFileRow.key files (sourceId, e.version, ordinal) = some row
      ∧ row.available = true ∧ rowFile row = file

/-- The files of a torrent have no place in the file system. -/
def NoPlace (row : SourceFileRow) : Prop := row.localPath = none ∧ row.device = none
    ∧ row.inode = none

/-- The source is a torrent or a release of a data root. -/
def Owned (store : Store) (sourceId : Id) : Prop :=
  (∃ torrent ∈ store.torrents, torrent.id = sourceId) ∨ ∃ source ∈ store.dataSources,
    source.id = sourceId

/-- The tables show what has been published. -/
structure Inv (scanCodec : ScanCodec) (sys : Manifest.Sys) (log : List Entry) : Prop where
  manifest : Published sys
  places : ∀ torrent ∈ sys.store.torrents, ∀ version ordinal row,
    lookup SourceFileRow.key sys.store.files (torrent.id, version, ordinal) = some row → NoPlace row
  sourceIds : UniqueKey DataSourceRow.id sys.store.dataSources
  sourceKeys : UniqueKey DataSourceRow.key sys.store.dataSources
  sourceId : ∀ source ∈ sys.store.dataSources,
    source.id = dataSourceId scanCodec source.rootName source.relativePath
  shows : ∀ sourceId, Shows sys.store.files sourceId (current log sourceId)
  versions : ∀ torrent ∈ sys.store.torrents,
    torrent.fileManifestVersion = ((current log torrent.id).map Entry.version).getD 0
  generations : ∀ source ∈ sys.store.dataSources,
    (current log source.id).map Entry.version = some source.lastSeenGeneration
  owners : ∀ entry ∈ log, Owned sys.store entry.sourceId
  rowOwners : ∀ key row, lookup SourceFileRow.key sys.store.files key = some row →
    Owned sys.store key.1

/-! ### Files -/

section

variable {files files' : List SourceFileRow} {sourceId : Id}

/-- The available files of a source are the same. -/
def SameAvailable (files files' : List SourceFileRow) (sourceId : Id) : Prop :=
  ∀ version ordinal row, row.available = true →
    (lookup SourceFileRow.key files' (sourceId, version, ordinal) = some row
      ↔ lookup SourceFileRow.key files (sourceId, version, ordinal) = some row)

theorem Shows.of_same {entry : Option Entry} (h : Shows files sourceId entry)
    (hsame : SameAvailable files files' sourceId) : Shows files' sourceId entry := by
  refine ⟨fun version ordinal row hrow havailable => ?_, fun e he ordinal file hfile => ?_⟩
  · exact h.available version ordinal row ((hsame version ordinal row havailable).mp
      hrow) havailable
  · obtain ⟨row, hrow, havailable, hfacts⟩ := h.files e he ordinal file hfile
    exact ⟨row, (hsame e.version ordinal row havailable).mpr hrow, havailable, hfacts⟩

theorem sameAvailable_of_eq (h : ∀ version ordinal,
    lookup SourceFileRow.key files' (sourceId, version, ordinal)
      = lookup SourceFileRow.key files (sourceId, version, ordinal)) :
        SameAvailable files files' sourceId := by
  intro version ordinal row _
  rw [h]

/-- Files that are not available stay so. -/
theorem sameAvailable_hide (preparing : Id) (p : SourceFileRow → Bool)
    (hp : ∀ version ordinal row, lookup SourceFileRow.key files (preparing, version,
      ordinal) = some row →
      p row = true → row.available = false) :
    SameAvailable files (setAvailable files preparing p false) sourceId := by
  intro version ordinal row havailable
  rw [Manifest.lookup_setAvailable]
  cases hrow : lookup SourceFileRow.key files (sourceId, version, ordinal) with
  | none => simp
  | some old =>
    rw [Option.map_some]
    split
    · rename_i hcondition
      have hsource : old.sourceId = sourceId := congrArg Prod.fst (lookup_eq_some_mem hrow).2
      have hold : old.available = false := by
        refine hp version ordinal old ?_ hcondition.2
        rw [← hcondition.1, hsource]
        exact hrow
      constructor
      · intro h
        rw [← Option.some_inj.mp h] at havailable
        cases havailable
      · intro h
        rw [← Option.some_inj.mp h, hold] at havailable
        cases havailable
    · rfl

/-- What staging leaves of a file: the file itself, or a file of the batch that is not available, at
the place where it was. -/
def Restaged (target : ManifestTarget) (files : List SourceFileRow) (key : Id × ℕ × ℕ)
    (row : SourceFileRow) : Prop :=
  lookup SourceFileRow.key files key = some row
    ∨ (key.1 = target.sourceId ∧ key.2.1 = target.version ∧ row.available = false
      ∧ ((∀ old, lookup SourceFileRow.key files key = some old → NoPlace old) → NoPlace row))

theorem restaged_foldlM {target : ManifestTarget} {batch : List InventoryFile}
    (h : batch.foldlM (stageFile target) files = .ok files') (key : Id × ℕ × ℕ)
    (row : SourceFileRow) (hrow : lookup SourceFileRow.key files' key = some row) :
      Restaged target files key row := by
  have hfold :=
      foldlM_invariant_mem (f := stageFile target) (P := fun _ (result : List SourceFileRow) =>
      ∀ key row, lookup SourceFileRow.key result key = some row → Restaged target files key row)
    (fun _ file _ before after hbefore hstage key row hrow => by
      unfold stageFile at hstage
      obtain ⟨index, -, hstage⟩ := bind_eq_ok.mp hstage
      obtain ⟨size, -, hstage⟩ := bind_eq_ok.mp hstage
      obtain rfl : upsertFile before (stagedFile target file) (restage (stagedFile target file)) =
          after :=
        Except.ok.inj hstage
      rw [lookup_upsertFile before (stagedFile target file)
        (Manifest.restage_key (stagedFile target file)), Manifest.stagedFile_key] at hrow
      split at hrow
      · rename_i heq
        subst heq
        obtain rfl := Option.some_inj.mp hrow
        cases hold : lookup SourceFileRow.key before (target.sourceId, target.version,
          file.index) with
        | none => exact .inr ⟨rfl, rfl, rfl, fun _ => ⟨rfl, rfl, rfl⟩⟩
        | some old =>
          refine .inr ⟨rfl, rfl, rfl, fun hplaces => ?_⟩
          have hplace : NoPlace old := by
            rcases hbefore _ old hold with hsame | ⟨-, -, -, hplace⟩
            · exact hplaces old hsame
            · exact hplace hplaces
          exact hplace
      · exact hbefore key row hrow)
    (fun _ _ hrow => .inl hrow) h
  exact hfold key row hrow

/-- The files of a batch are not available, and were not. -/
theorem sameAvailable_stage {target : ManifestTarget} {batch : List InventoryFile}
    (h : batch.foldlM (stageFile target) files = .ok files')
    (hversion : ∀ ordinal row, lookup SourceFileRow.key files (target.sourceId,
      target.version, ordinal)
      = some row → row.available = false) : SameAvailable files files' sourceId := by
  intro version ordinal row havailable
  constructor
  · intro hrow
    rcases restaged_foldlM h _ row hrow with hsame | ⟨-, -, hunavailable, -⟩
    · exact hsame
    · rw [havailable] at hunavailable
      cases hunavailable
  · intro hrow
    refine ((Manifest.stagesFiles_foldlM h).others _ fun file _ heq => ?_).trans hrow
    obtain ⟨rfl, rfl, rfl⟩ : sourceId = target.sourceId ∧ version = target.version
        ∧ ordinal = file.index := by
      simpa using heq
    rw [hversion _ row hrow] at havailable
    cases havailable

/-- A publication hides the files of its source that it does not name, and shows the others. -/
theorem shows_publish {version count : ℕ} {entry : Entry} (hversion : entry.version = version)
    (hcount : entry.files.length = count)
    (hstaged : ∀ ordinal file, entry.files[ordinal]? = some file →
      ∃ row, lookup SourceFileRow.key files (sourceId, version, ordinal) = some row
        ∧ rowFile row = file) :
    Shows (setAvailable (setAvailable files sourceId (fun _ => true) false) sourceId
      (fun row => row.manifestVersion = version ∧ row.ordinal < count) true)
        sourceId (some entry) := by
  have hlookup := Manifest.lookup_published files sourceId version count
  refine ⟨fun version' ordinal row hrow havailable => ?_, fun e he ordinal file hfile => ?_⟩
  · rw [hlookup] at hrow
    obtain ⟨old, -, rfl⟩ := Option.map_eq_some_iff.mp hrow
    obtain ⟨rfl, hlt⟩ := of_decide_eq_true havailable
    exact ⟨entry, rfl, hversion.symm, hcount ▸ hlt⟩
  · obtain rfl := Option.some_inj.mp he
    obtain ⟨old, hold, hfacts⟩ := hstaged ordinal file hfile
    have hlt := (List.getElem?_eq_some_iff.mp hfile).1
    refine ⟨{ old with available := true }, ?_, rfl, hfacts⟩
    rw [hlookup, hversion, hold, Option.map_some]
    simp [hcount ▸ hlt]

/-- What the files of a release are stored as: those that it names, and no others. -/
structure Stores (sourceId : Id) (version : ℕ) (released : List ScannedFile)
    (files files' : List SourceFileRow) : Prop where
  unique : UniqueKey SourceFileRow.key files → UniqueKey SourceFileRow.key files'
  others : ∀ key, (∀ ordinal < released.length, key ≠ (sourceId, version, ordinal)) →
    lookup SourceFileRow.key files' key = lookup SourceFileRow.key files key
  stored : ∀ ordinal file, released[ordinal]? = some file →
    ∃ row, lookup SourceFileRow.key files' (sourceId, version, ordinal) = some row
      ∧ row.available = true ∧ rowFile row = releasedFile file

theorem restore_key (new old : SourceFileRow) : (restore new old).key = old.key := rfl

theorem releaseFile_key (codec : ScanCodec) (rootName : String) (version : ℕ)
    (release : ScannedRelease) (file : ScannedFile) (ordinal : ℕ) :
      (releaseFile codec rootName version release file ordinal).key
      = (dataSourceId codec rootName release.relativePath, version, ordinal) := rfl

theorem stores_foldl (codec : ScanCodec) (rootName : String) (version : ℕ)
    (release : ScannedRelease) (files : List SourceFileRow) (released : List ScannedFile) :
    Stores (dataSourceId codec rootName release.relativePath) version released files
      (released.zipIdx.foldl (fun files (file, ordinal) =>
        let row := releaseFile codec rootName version release file ordinal
        upsertFile files row (restore row)) files) := by
  induction released using List.reverseRecOn with
  | nil => exact ⟨fun h => h, fun _ _ => rfl, by simp⟩
  | append_singleton done file ih =>
    rw [List.zipIdx_append, List.foldl_append]
    generalize List.foldl _ files done.zipIdx = before at ih
    simp only [List.zipIdx_singleton, List.foldl_cons, List.foldl_nil, Nat.zero_add]
    have hlookup :=
      lookup_upsertFile before (releaseFile codec rootName version release file done.length)
      (restore_key (releaseFile codec rootName version release file done.length))
    rw [releaseFile_key] at hlookup
    refine ⟨fun hunique => unique_upsertFile (restore_key _) (ih.unique hunique),
      fun key hkey => ?_, fun ordinal file' hfile => ?_⟩
    · rw [hlookup, if_neg (hkey done.length (by simp))]
      exact ih.others key fun ordinal hlt => hkey ordinal (by rw [List.length_append]; omega)
    · rcases lt_or_ge ordinal done.length with hlt | hge
      · rw [List.getElem?_append_left hlt] at hfile
        obtain ⟨row, hrow, havailable, hfacts⟩ := ih.stored ordinal file' hfile
        refine ⟨row, ?_, havailable, hfacts⟩
        rw [hlookup, if_neg (by simp; omega), hrow]
      · rw [List.getElem?_append_right hge] at hfile
        obtain ⟨hzero, rfl⟩ : ordinal - done.length = 0 ∧ file' = file := by
          have hlt := (List.getElem?_eq_some_iff.mp hfile).1
          have hzero : ordinal - done.length = 0 := by simpa using hlt
          rw [hzero] at hfile
          exact ⟨hzero, by simpa using hfile.symm⟩
        obtain rfl : ordinal = done.length := by omega
        rw [hlookup, if_pos rfl]
        cases lookup SourceFileRow.key before
            (dataSourceId codec rootName release.relativePath, version, done.length) with
        | none => exact ⟨_, rfl, rfl, rfl⟩
        | some old => exact ⟨_, rfl, rfl, rfl⟩

/-- **The files of a release** are the available files of its source. -/
theorem shows_persistFiles (codec : ScanCodec) (input : ScanInput) (release : ScannedRelease)
    (files : List SourceFileRow) :
    Shows (persistFiles codec files input.rootName input.generation release)
      (dataSourceId codec input.rootName release.relativePath)
        (some (releaseEntry codec input release)) := by
  have hstores := stores_foldl codec input.rootName input.generation release
    (setAvailable files (dataSourceId codec input.rootName release.relativePath)
      (fun _ => true) false)
    release.files
  refine ⟨fun version ordinal row hrow havailable => ?_, fun e he ordinal file hfile => ?_⟩
  · by_cases hnamed : version = input.generation ∧ ordinal < release.files.length
    · exact ⟨_, rfl, hnamed.1, by simpa [releaseEntry] using hnamed.2⟩
    · -- A file that the release does not name has been hidden.
      unfold persistFiles at hrow
      rw [hstores.others _ fun ordinal' hlt heq => hnamed ?_, Manifest.lookup_setAvailable] at hrow
      · obtain ⟨old, hold, rfl⟩ := Option.map_eq_some_iff.mp hrow
        have hsource : old.sourceId = dataSourceId codec input.rootName release.relativePath :=
          congrArg Prod.fst (lookup_eq_some_mem hold).2
        rw [if_pos ⟨hsource, rfl⟩] at havailable
        cases havailable
      · obtain ⟨rfl, rfl⟩ : version = input.generation ∧ ordinal = ordinal' := by simpa using heq
        exact ⟨rfl, hlt⟩
  · obtain rfl := Option.some_inj.mp he
    rw [releaseEntry, List.getElem?_map] at hfile
    obtain ⟨released, hreleased, rfl⟩ := Option.map_eq_some_iff.mp hfile
    exact hstores.stored ordinal released hreleased

/-- The files of the other sources stay as they are. -/
theorem lookup_persistFiles_of_ne (codec : ScanCodec) (rootName : String) (version : ℕ)
    (release : ScannedRelease) (files : List SourceFileRow) {key : Id × ℕ × ℕ}
    (hne : key.1 ≠ dataSourceId codec rootName release.relativePath) :
    lookup SourceFileRow.key (persistFiles codec files rootName version release) key
      = lookup SourceFileRow.key files key := by
  have hstores := stores_foldl codec rootName version release
    (setAvailable files (dataSourceId codec rootName release.relativePath) (fun _ => true) false)
    release.files
  refine (hstores.others key fun ordinal _ heq => hne (congrArg Prod.fst heq)).trans ?_
  exact Manifest.lookup_setAvailable_of_ne _ _ _ hne

theorem unique_persistFiles (codec : ScanCodec) (rootName : String) (version : ℕ)
    (release : ScannedRelease) (hunique : UniqueKey SourceFileRow.key files) :
    UniqueKey SourceFileRow.key (persistFiles codec files rootName version release) :=
  (stores_foldl codec rootName version release _ release.files).unique
    (Manifest.unique_setAvailable _ _ _ hunique)

end

/-! ### Loads -/

section

variable {codec : QbitCodec} {scanCodec : ScanCodec} {sys : Manifest.Sys} {log : List Entry}

/-- A change keeps the identifiers, and a torrent that is new has no manifest yet. -/
theorem ids_projectChange {store store' : Store} {batch batch' : ProjectionBatch}
    {change : InventoryChange} {generation : ℕ} {detectCompletions : Bool} {now : ℤ}
    (h : projectChange codec generation detectCompletions now (store, batch) change =
      .ok (store', batch')) :
    store'.dataSources = store.dataSources
      ∧ (∀ row ∈ store.torrents, ∃ row' ∈ store'.torrents, row'.id = row.id)
      ∧ ∀ row' ∈ store'.torrents,
        (∃ row ∈ store.torrents, row.id = row'.id) ∨ row'.fileManifestVersion = 0 := by
  -- An update in place keeps the identifiers.
  have hupdate : ∀ (qbitId : String) (f : TorrentRow → TorrentRow), (∀ row, (f row).id = row.id) →
      (∀ row ∈ store.torrents, ∃ row' ∈ updateKey TorrentRow.qbitId store.torrents qbitId f,
        row'.id = row.id)
        ∧ ∀ row' ∈ updateKey TorrentRow.qbitId store.torrents qbitId f, ∃ row ∈ store.torrents,
          row.id = row'.id := by
    intro qbitId f hf
    refine ⟨fun row hrow => ⟨_, mem_updateKey.mpr ⟨row, hrow, rfl⟩, ?_⟩, fun row' hrow' => ?_⟩
    · split
      · exact hf row
      · rfl
    · obtain ⟨row, hrow, rfl⟩ := mem_updateKey.mp hrow'
      refine ⟨row, hrow, ?_⟩
      split
      · exact (hf row).symm
      · rfl
  cases change with
  | removed changed =>
    obtain ⟨rfl, -⟩ : removeTorrent store changed now = store' ∧ _ := by
      simpa [projectChange] using h
    obtain ⟨hnext, hprev⟩ := hupdate changed (removedRow now) fun _ => rfl
    exact ⟨rfl, hnext, fun row' hrow' => .inl (hprev row' hrow')⟩
  | upsert changed delta =>
    obtain ⟨⟨store₁, completion, manifestNeeded⟩, hproject, h⟩ := bind_eq_ok.mp h
    obtain ⟨rfl, -⟩ : store₁ = store' ∧ _ := by simpa [pure, Except.pure] using h
    obtain ⟨fields, torrents, -, hupsert, hresult⟩ := projectTorrent_eq_ok hproject
    have hstore : store₁.torrents = torrents ∧ store₁.dataSources = store.dataSources := by
      rcases hresult with ⟨-, rfl⟩ | ⟨completedAt, accepted, -, haccept⟩
      · exact ⟨rfl, rfl⟩
      · obtain ⟨outbox, completions, inserted, -, -, rfl⟩ := Completion.accept_eq_some haccept
        exact ⟨rfl, rfl⟩
    refine ⟨hstore.2, ?_⟩
    rw [hstore.1]
    rcases (upsertTorrent_eq_some hupsert).2 with ⟨-, rfl⟩ | ⟨hnew, -, rfl⟩
    · obtain ⟨hnext, hprev⟩ :=
        hupdate changed (updatedRow (Fields.row codec fields (store.torrent changed) changed
        delta generation detectCompletions now)) fun _ => rfl
      exact ⟨hnext, fun row' hrow' => .inl (hprev row' hrow')⟩
    · refine ⟨fun row hrow => ⟨row, List.mem_append_left _ hrow, rfl⟩, fun row' hrow' => ?_⟩
      rcases List.mem_append.mp hrow' with hrow' | hrow'
      · exact .inl ⟨row', hrow', rfl⟩
      · obtain rfl := List.mem_singleton.mp hrow'
        refine .inr ?_
        show ((store.torrent changed).map TorrentRow.fileManifestVersion).getD 0 = 0
        rw [show store.torrent changed = none from hnew]
        rfl

/-- What the rows of the files are before and after: a row that stays, or a new one of a torrent. -/
def KeepsRows (torrents : List TorrentRow) (files files' : List SourceFileRow) : Prop :=
  ∀ key row, lookup SourceFileRow.key files' key = some row →
    (∃ old, lookup SourceFileRow.key files key = some old ∧ (NoPlace old → NoPlace row))
      ∨ (NoPlace row ∧ ∃ torrent ∈ torrents, torrent.id = key.1)

theorem keepsRows_of_eq {torrents : List TorrentRow} {files files' : List SourceFileRow}
    (h : files' = files) : KeepsRows torrents files files' := by
  rintro key row hrow
  exact .inl ⟨row, h ▸ hrow, fun hplace => hplace⟩

/-- The torrents and the files that are not available change, and nothing is published. -/
theorem Inv.quiet (h : Inv scanCodec sys log) {sys' : Manifest.Sys} (hmanifest : Published sys')
    (hapart : IdsApart sys'.store)
    (hsame : ∀ sourceId, SameAvailable sys.store.files sys'.store.files sourceId)
    (hrows : KeepsRows sys'.store.torrents sys.store.files sys'.store.files)
    (hsources : sys'.store.dataSources = sys.store.dataSources)
    (hevolves : Evolves KeepsManifest (FreshTorrent sys.store.torrents) sys.store.torrents
      sys'.store.torrents)
    (hnew : ∀ row' ∈ sys'.store.torrents,
      (∃ row ∈ sys.store.torrents, row.id = row'.id) ∨ row'.fileManifestVersion = 0) :
    Inv scanCodec sys' log := by
  have howned : ∀ sourceId, Owned sys.store sourceId → Owned sys'.store sourceId := by
    rintro sourceId (⟨torrent, htorrent, rfl⟩ | ⟨source, hsource, rfl⟩)
    · obtain ⟨torrent', htorrent', hkeeps⟩ := hevolves.exists_next htorrent
      exact .inl ⟨torrent', htorrent', hkeeps.id⟩
    · exact .inr ⟨source, hsources ▸ hsource, rfl⟩
  -- A new torrent owns nothing yet.
  have hfresh : ∀ torrent ∈ sys'.store.torrents, (∀ row ∈ sys.store.torrents, row.id ≠ torrent.id) →
      ¬ Owned sys.store torrent.id := by
    rintro torrent htorrent hne (⟨row, hrow, hid⟩ | ⟨source, hsource, hid⟩)
    · exact hne row hrow hid
    · exact hapart torrent htorrent source (hsources ▸ hsource) hid.symm
  constructor
  case manifest => exact hmanifest
  case places =>
    intro torrent htorrent version ordinal row hrow
    rcases hrows _ row hrow with ⟨old, hold, hplace⟩ | ⟨hplace, -⟩
    · refine hplace ?_
      rcases hevolves.exists_prev htorrent with ⟨torrent₀, htorrent₀, hkeeps⟩ | hnewTorrent
      · exact h.places torrent₀ htorrent₀ version ordinal old (hkeeps.id ▸ hold)
      · exact absurd (h.rowOwners _ old hold) (hfresh torrent htorrent hnewTorrent.id)
    · exact hplace
  case sourceIds => rw [hsources]; exact h.sourceIds
  case sourceKeys => rw [hsources]; exact h.sourceKeys
  case sourceId => rw [hsources]; exact h.sourceId
  case shows => exact fun sourceId => (h.shows sourceId).of_same (hsame sourceId)
  case versions =>
    intro torrent htorrent
    rcases hevolves.exists_prev htorrent with ⟨torrent₀, htorrent₀, hkeeps⟩ | hnewTorrent
    · rw [hkeeps.version, hkeeps.id]
      exact h.versions torrent₀ htorrent₀
    · rcases hnew torrent htorrent with ⟨row, hrow, hid⟩ | hzero
      · exact absurd hid (hnewTorrent.id row hrow)
      · have hnone : current log torrent.id = none := current_eq_none.mpr fun entry hentry heq =>
          hfresh torrent htorrent hnewTorrent.id (by rw [← heq]; exact h.owners entry hentry)
        rw [hzero, hnone]
        rfl
  case generations => rw [hsources]; exact h.generations
  case owners => exact fun entry hentry => howned _ (h.owners entry hentry)
  case rowOwners =>
    intro key row hrow
    rcases hrows key row hrow with ⟨old, hold, -⟩ | ⟨-, htorrent⟩
    · exact howned _ (h.rowOwners key old hold)
    · exact .inl htorrent

/-- A torrent has no available files of a version that is not published. -/
theorem Inv.unavailable (h : Inv scanCodec sys log) {torrent : TorrentRow}
    (htorrent : torrent ∈ sys.store.torrents) (ordinal : ℕ) (row : SourceFileRow)
    (hrow : lookup SourceFileRow.key sys.store.files
      (torrent.id, torrent.fileManifestVersion + 1, ordinal) = some row) :
        row.available = false := by
  by_contra havailable
  obtain ⟨entry, hentry, hversion, -⟩ := (h.shows torrent.id).available _ ordinal row hrow
    (by simpa using havailable)
  have hcurrent := h.versions torrent htorrent
  rw [hentry, Option.map_some, Option.getD_some] at hcurrent
  omega

/-- A new entry of a torrent. -/
theorem Inv.publish (h : Inv scanCodec sys log) {sys' : Manifest.Sys} (hmanifest : Published sys')
    (hapart : IdsApart sys.store) {torrent : TorrentRow}
    (htorrent : torrent ∈ sys.store.torrents) {entry : Entry}
    (hentry : entry.sourceId = torrent.id) (now : ℤ)
    (hstore : sys'.store =
    { sys.store.updateTorrent torrent.id (publishedRow entry.version now) with
      files :=
        setAvailable (setAvailable sys.store.files torrent.id (fun _ => true) false) torrent.id
        (fun row => row.manifestVersion = entry.version ∧ row.ordinal < entry.files.length) true })
    (hstaged : ∀ ordinal file, entry.files[ordinal]? = some file →
      ∃ row, lookup SourceFileRow.key sys.store.files (torrent.id, entry.version,
        ordinal) = some row
        ∧ rowFile row = file) : Inv scanCodec sys' (log ++ [entry]) := by
  have hfile : ∀ key : Id × ℕ × ℕ, key.1 ≠ torrent.id →
      lookup SourceFileRow.key sys'.store.files key =
        lookup SourceFileRow.key sys.store.files key := by
    intro key hne
    rw [hstore]
    exact (Manifest.lookup_setAvailable_of_ne _ _ _ hne).trans
      (Manifest.lookup_setAvailable_of_ne _ _ _ hne)
  have hrows : ∀ key row, lookup SourceFileRow.key sys'.store.files key = some row →
      ∃ old, lookup SourceFileRow.key sys.store.files key = some old
        ∧ (NoPlace old → NoPlace row) := by
    intro key row hrow
    rw [hstore] at hrow
    simp only [Manifest.lookup_setAvailable, Option.map_map] at hrow
    obtain ⟨old, hold, rfl⟩ := Option.map_eq_some_iff.mp hrow
    refine ⟨old, hold, fun hplace => ?_⟩
    simp only [Function.comp]
    split <;> split <;> exact hplace
  have hids : ∀ torrent' ∈ sys'.store.torrents, ∃ row ∈ sys.store.torrents, row.id = torrent'.id
      ∧ torrent' = if row.id = torrent.id then publishedRow entry.version now row else row := by
    intro torrent' htorrent'
    rw [hstore] at htorrent'
    obtain ⟨row, hrow, rfl⟩ := mem_updateKey.mp htorrent'
    refine ⟨row, hrow, ?_, rfl⟩
    split <;> rfl
  have howned : ∀ sourceId, Owned sys.store sourceId → Owned sys'.store sourceId := by
    rintro sourceId (⟨row, hrow, rfl⟩ | hsource)
    · refine .inl ⟨_, by rw [hstore]; exact mem_updateKey.mpr ⟨row, hrow, rfl⟩, ?_⟩
      split <;> rfl
    · rw [Owned, hstore]
      exact .inr hsource
  have hsources : sys'.store.dataSources = sys.store.dataSources := by rw [hstore]; rfl
  constructor
  case manifest => exact hmanifest
  case places =>
    intro torrent' htorrent' version ordinal row hrow
    obtain ⟨row', hrow', hid, -⟩ := hids torrent' htorrent'
    obtain ⟨old, hold, hplace⟩ := hrows _ row hrow
    exact hplace (h.places row' hrow' version ordinal old (hid ▸ hold))
  case sourceIds => rw [hsources]; exact h.sourceIds
  case sourceKeys => rw [hsources]; exact h.sourceKeys
  case sourceId => rw [hsources]; exact h.sourceId
  case shows =>
    intro sourceId
    rw [current_append, hentry]
    split
    · rename_i heq
      subst heq
      rw [hstore]
      exact shows_publish rfl rfl hstaged
    · rename_i hne
      exact (h.shows sourceId).of_same (sameAvailable_of_eq fun version ordinal =>
        hfile (sourceId, version, ordinal) (Ne.symm hne))
  case versions =>
    intro torrent' htorrent'
    obtain ⟨row, hrow, hid, rfl⟩ := hids torrent' htorrent'
    rw [current_append, hentry, ← hid]
    by_cases heq : row.id = torrent.id
    · rw [if_pos heq, if_pos heq.symm]
      rfl
    · rw [if_neg heq, if_neg (Ne.symm heq)]
      exact h.versions row hrow
  case generations =>
    rw [hsources]
    intro source hsource
    rw [current_append, hentry, if_neg (hapart torrent htorrent source hsource)]
    exact h.generations source hsource
  case owners =>
    intro entry' hentry'
    rcases List.mem_append.mp hentry' with hentry' | hentry'
    · exact howned _ (h.owners entry' hentry')
    · obtain rfl := List.mem_singleton.mp hentry'
      exact howned _ (.inl ⟨torrent, htorrent, hentry.symm⟩)
  case rowOwners =>
    intro key row hrow
    obtain ⟨old, hold, -⟩ := hrows key row hrow
    exact howned _ (h.rowOwners key old hold)

/-- The torrents change in place, and the files stay. -/
theorem Inv.update (h : Inv scanCodec sys log) {sys' : Manifest.Sys} (hmanifest : Published sys')
    (hapart : IdsApart sys'.store) (hfiles : sys'.store.files = sys.store.files)
    (hsources : sys'.store.dataSources = sys.store.dataSources)
    (hevolves : Evolves KeepsManifest (FreshTorrent sys.store.torrents) sys.store.torrents
      sys'.store.torrents)
    (hnew : ∀ row' ∈ sys'.store.torrents,
      (∃ row ∈ sys.store.torrents, row.id = row'.id) ∨ row'.fileManifestVersion = 0) :
    Inv scanCodec sys' log :=
  h.quiet hmanifest hapart (fun _ =>
    sameAvailable_of_eq fun _ _ => by rw [hfiles]) (keepsRows_of_eq hfiles)
    hsources hevolves hnew

theorem id_of_mem_updateTorrent {store : Store} {sourceId : Id} {f : TorrentRow → TorrentRow}
    (hf : ∀ row, (f row).id = row.id) {row' : TorrentRow}
    (h : row' ∈ (store.updateTorrent sourceId f).torrents) :
    ∃ row ∈ store.torrents, row.id = row'.id := by
  obtain ⟨row, hrow, rfl⟩ := mem_updateKey.mp h
  refine ⟨row, hrow, ?_⟩
  split
  · exact (hf row).symm
  · rfl

/-- The end of an update keeps the torrents and the data sources. -/
theorem finish_keeps {store store' : Store} {generation : ℕ} {attempt : QbitSync.Attempt}
    (h : attempt.finish generation store = some store') :
    store'.dataSources = store.dataSources
      ∧ ∀ row' ∈ store'.torrents, ∃ row ∈ store.torrents, row.id = row'.id := by
  obtain ⟨inventory, rfl, -⟩ := QbitSync.Attempt.finish_eq_some h
  split
  · refine ⟨rfl, fun row' hrow' => ?_⟩
    obtain ⟨row, hrow, rfl⟩ := List.mem_map.mp hrow'
    refine ⟨row, hrow, ?_⟩
    split <;> rfl
  · exact ⟨rfl, fun row' hrow' => ⟨row', hrow', rfl⟩⟩

/-- **Preparation** hides the files of a version that is not published. -/
theorem Inv.prepare (h : Inv scanCodec sys log) (sourceId : Id)
    (hapart : IdsApart (Manifest.Event.apply codec sys (.prepare sourceId)).store) :
    Inv scanCodec (Manifest.Event.apply codec sys (.prepare sourceId)) log := by
  have hmanifest : Manifest.Published (Manifest.Event.apply codec sys (.prepare sourceId)) :=
    h.manifest.prepare sourceId
  revert hmanifest hapart
  simp only [Manifest.Event.apply]
  cases hprepare : prepareQbitManifest sys.store sourceId with
  | error e =>
    intro hapart hmanifest
    exact h.update hmanifest hapart rfl rfl (evolves_refl fun row _ => .refl row)
      fun row hrow => .inl ⟨row, hrow, rfl⟩
  | ok result =>
    obtain ⟨store, target⟩ := result
    obtain ⟨row, hrow, hid, -, rfl, rfl⟩ := prepareQbitManifest_eq_ok hprepare
    intro hapart hmanifest
    refine h.quiet hmanifest hapart (fun sourceId' =>
      sameAvailable_hide sourceId _ fun version ordinal old hold hp => ?_)
      (fun key new hnew => ?_) rfl
      (Manifest.evolves_updateTorrent fun row => ⟨rfl, rfl, rfl, fun h => by cases h⟩)
      (fun row' hrow' => .inl (id_of_mem_updateTorrent
        (f := fun row => { row with fileManifestState := .loading }) (fun _ => rfl) hrow'))
    · obtain rfl : version = row.fileManifestVersion + 1 :=
        (Manifest.file_key hold).2.1.symm.trans (of_decide_eq_true hp)
      exact h.unavailable hrow ordinal old (by rw [hid]; exact hold)
    · rw [Manifest.lookup_setAvailable] at hnew
      obtain ⟨old, hold, rfl⟩ := Option.map_eq_some_iff.mp hnew
      refine .inl ⟨old, hold, fun hplace => ?_⟩
      split <;> exact hplace

/-- **Staging** writes files that are not available. -/
theorem Inv.stage (h : Inv scanCodec sys log) (batch : List InventoryFile)
    (hapart : IdsApart (Manifest.Event.apply codec sys (.stage batch)).store) :
    Inv scanCodec (Manifest.Event.apply codec sys (.stage batch)) log := by
  have hmanifest : Manifest.Published (Manifest.Event.apply codec sys (.stage batch)) :=
    h.manifest.stage batch
  have hevolves : Evolves KeepsManifest (FreshTorrent sys.store.torrents) sys.store.torrents
      sys.store.torrents := evolves_refl fun row _ => .refl row
  have hids : ∀ row' ∈ sys.store.torrents,
      (∃ row ∈ sys.store.torrents, row.id = row'.id) ∨ row'.fileManifestVersion = 0 :=
    fun row hrow => .inl ⟨row, hrow, rfl⟩
  revert hmanifest hapart
  simp only [Manifest.Event.apply]
  cases hload : sys.load with
  | none => exact fun _ _ => h
  | some load =>
    simp only
    split
    · cases hproject : projectQbitFiles sys.store load.target batch with
      | error e => exact fun hapart hmanifest => h.update hmanifest hapart rfl rfl hevolves hids
      | ok store =>
        obtain ⟨files, hfiles, rfl⟩ := projectQbitFiles_eq_ok hproject
        obtain ⟨⟨row, hrow, hid, hversion, -⟩, -, -⟩ := h.manifest.load load hload
        intro hapart hmanifest
        refine h.quiet hmanifest hapart (fun sourceId =>
          sameAvailable_stage hfiles fun ordinal old hold => ?_)
          (fun key new hnew => ?_) rfl hevolves hids
        · rw [hversion, ← hid] at hold
          exact h.unavailable hrow ordinal old hold
        · rcases restaged_foldlM hfiles key new hnew with hsame | ⟨hsource, hkey, -, hplace⟩
          · exact .inl ⟨new, hsame, fun h => h⟩
          · refine .inr ⟨hplace fun old hold => ?_, row, hrow, hid.trans hsource.symm⟩
            obtain ⟨sourceId, version, ordinal⟩ := key
            obtain rfl : sourceId = load.target.sourceId := hsource
            exact h.places row hrow version ordinal old (by rw [hid]; exact hold)
    · exact fun hapart hmanifest => h.update hmanifest hapart rfl rfl hevolves hids

theorem rowFile_of_matches {row : SourceFileRow} {file : InventoryFile}
    (h : Manifest.Matches row file) (hplace : NoPlace row) : rowFile row = inventoryFile file := by
  rw [rowFile, h.displayPath, h.size, hplace.1, hplace.2.1, hplace.2.2]
  rfl

/-- **One statement of a load**, with what it publishes. -/
theorem Inv.apply (h : Inv scanCodec sys log) (event : Manifest.Event)
    (hapart : IdsApart (event.apply codec sys).store) :
    ∃ new, (event.apply codec sys).published = sys.published ++ new
      ∧ Inv scanCodec (event.apply codec sys) (log ++ new.map publicationEntry) := by
  have hmanifest : Manifest.Published (event.apply codec sys) := h.manifest.apply event
  have hnothing : (event.apply codec sys).published = sys.published →
      Inv scanCodec (event.apply codec sys) log →
      ∃ new, (event.apply codec sys).published = sys.published ++ new
        ∧ Inv scanCodec (event.apply codec sys) (log ++ new.map publicationEntry) :=
    fun hpublished hinv => ⟨[], by simp [hpublished], by simpa using hinv⟩
  cases event with
  | change generation detectCompletions now delta =>
    revert hnothing hmanifest hapart
    simp only [Manifest.Event.apply]
    cases hchange : projectChange codec generation detectCompletions now (sys.store,
      ⟨0, [], []⟩) delta with
    | error e => exact fun _ _ hnothing => hnothing rfl h
    | ok result =>
      obtain ⟨hevolves, hfiles⟩ := Manifest.evolves_projectChange h.manifest.qbitIds hchange
      obtain ⟨hsources, -, hnew⟩ := ids_projectChange hchange
      exact fun hapart hmanifest hnothing =>
        hnothing rfl (h.update hmanifest hapart hfiles hsources hevolves hnew)
  | finishUpdate generation attempt =>
    revert hnothing hmanifest hapart
    simp only [Manifest.Event.apply]
    cases hfinish : attempt.finish generation sys.store with
    | none => exact fun _ _ hnothing => hnothing rfl h
    | some store =>
      obtain ⟨hevolves, hfiles⟩ := Manifest.evolves_finish hfinish
      obtain ⟨hsources, hids⟩ := finish_keeps hfinish
      exact fun hapart hmanifest hnothing =>
        hnothing rfl (h.update hmanifest hapart hfiles hsources hevolves fun row hrow =>
          .inl (hids row hrow))
  | request sourceId =>
    refine hnothing rfl (h.update hmanifest hapart rfl rfl
      (Manifest.evolves_requestManifest sourceId)
      fun row hrow => .inl (id_of_mem_updateTorrent (fun row => ?_) hrow))
    split <;> rfl
  | prepare sourceId =>
    refine hnothing ?_ (h.prepare sourceId hapart)
    simp only [Manifest.Event.apply]
    split <;> rfl
  | stage batch =>
    refine hnothing ?_ (h.stage batch hapart)
    simp only [Manifest.Event.apply]
    split
    · rfl
    · split
      · split <;> rfl
      · rfl
  | publish now =>
    revert hnothing hmanifest hapart
    simp only [Manifest.Event.apply]
    cases hload : sys.load with
    | none => exact fun _ _ hnothing => hnothing rfl h
    | some load =>
      simp only
      cases hfinish : finishQbitManifest sys.store load.target load.staged.length now with
      | error e =>
        exact fun hapart hmanifest hnothing => hnothing rfl (h.update hmanifest hapart rfl rfl
          (evolves_refl fun row _ => .refl row) fun row hrow => .inl ⟨row, hrow, rfl⟩)
      | ok store =>
        obtain rfl := finishQbitManifest_eq_ok hfinish
        obtain ⟨⟨row, hrow, hid, hversion, -⟩, -, hstaged⟩ := h.manifest.load load hload
        intro hapart hmanifest _
        refine ⟨[⟨load.target.sourceId, load.target.version, load.staged⟩], rfl, ?_⟩
        refine h.publish hmanifest (fun torrent htorrent source hsource => ?_) hrow hid.symm now ?_
          fun ordinal file hfile => ?_
        · -- The torrents keep their identifiers.
          have hmem : (if torrent.id = load.target.sourceId
            then publishedRow load.target.version now torrent
              else torrent) ∈ (sys.store.updateTorrent load.target.sourceId
                (publishedRow load.target.version now)).torrents :=
            mem_updateKey.mpr ⟨torrent, htorrent, rfl⟩
          have hne := hapart _ hmem source hsource
          split at hne <;> exact hne
        · rw [hid]
          simp [publicationEntry]
        · obtain ⟨staged, hget, rfl⟩ := Option.map_eq_some_iff.mp
            ((List.getElem?_map (f := inventoryFile) (l := load.staged)
              (i := ordinal)).symm.trans hfile)
          obtain ⟨old, hold, hmatches⟩ := hstaged ordinal staged hget
          refine ⟨old, by rw [hid]; exact hold, rowFile_of_matches hmatches ?_⟩
          exact h.places row hrow load.target.version ordinal old (by rw [hid]; exact hold)
  | fail sourceId =>
    exact hnothing rfl (h.update hmanifest hapart rfl rfl
      (Manifest.evolves_failQbitManifest sourceId)
      fun row hrow => .inl (id_of_mem_updateTorrent
        (f := fun row => { row with fileManifestState := .stale }) (fun _ => rfl) hrow))
  | abort =>
    exact hnothing rfl (h.update hmanifest hapart rfl rfl (evolves_refl fun row _ => .refl row)
      fun row hrow => .inl ⟨row, hrow, rfl⟩)

end

end Sporos.Service.Publications
