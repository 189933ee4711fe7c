import Sporos.Service.Decisions
import Sporos.Service.PublicationRuns

/-! # What an evaluation reads

The queries of an evaluation and its reads of the files are statements of their own, between which
the loads and the scans go on. The files that it reads of a source are those of a publication as
long as the source has not been published again since the query listed it (`reads_published_iff`).
-/

namespace Sporos.Service.EvaluationReads

open Sporos.Model.Matching
open Sporos.Service.Tables
open Sporos.Service.Sources
open Sporos.Service.SourceFacts
open Sporos.Service.QbitProjection
open Sporos.Service.DataTree
open Sporos.Service.DataScan (ScanCodec)
open Sporos.Service.Publications
open Sporos.Service.PublicationRuns
open Sporos.Service.Selection
open Sporos.Service.Decisions
open Sporos.Lib.Table
open Sporos.Lib.Lists

/-! ### The files of a version -/

/-- What an evaluation reads of a file. -/
structure ReadFile where
  path : Str
  size : ℕ
  deviceId : Option ℕ
  inode : Option ℕ
  deriving DecidableEq, Repr

/-- What a file that has been read says. -/
def readFile (file : LocalSourceFile) : ReadFile :=
  ⟨file.path, file.size, file.deviceId, file.inode⟩

/-- What a file that has been published says. -/
def publishedFile (file : PublishedFile) : ReadFile :=
  ⟨file.displayPath.toList, file.size, file.device, file.inode⟩

theorem readFile_localFile (row : SourceFileRow) :
    readFile (localFile row) = publishedFile (rowFile row) := rfl

section

variable {files : List SourceFileRow} {sourceId : Id} {version : ℕ}

theorem lookup_of_versionFiles (hunique : UniqueKey SourceFileRow.key files) {row : SourceFileRow}
    (hrow : row ∈ versionFiles files sourceId version) :
    lookup SourceFileRow.key files (sourceId, version, row.ordinal) = some row := by
  obtain ⟨hmem, rfl, rfl, -⟩ := mem_versionFiles.mp hrow
  exact UniqueKey.lookup_of_mem hunique hmem rfl

/-- **The files of the version that a source shows** are those of its publication. -/
theorem allFiles_of_shows (hunique : UniqueKey SourceFileRow.key files) {entry : Entry}
    (hshows : Shows files sourceId (some entry)) :
    (allFiles files sourceId entry.version).map readFile = entry.files.map publishedFile := by
  rw [allFiles, List.map_map]
  refine map_insertionSort_of_indices ?_ (fun row hrow => ?_) fun ordinal hlt => ?_
  · -- The ordinals of the rows of a version are told apart by the key.
    refine List.Nodup.map_on (fun a ha b hb heq => ?_) ((List.Nodup.of_map _ hunique).filter _)
    have hlookup := lookup_of_versionFiles hunique ha
    rw [heq, lookup_of_versionFiles hunique hb] at hlookup
    exact (Option.some_inj.mp hlookup).symm
  · have hlookup := lookup_of_versionFiles hunique hrow
    obtain ⟨e, he, -, hlt⟩ := hshows.available _ _ row hlookup (mem_versionFiles.mp hrow).2.2.2
    obtain rfl := Option.some_inj.mp he
    obtain ⟨row', hrow', -, hfacts⟩ :=
      hshows.files entry rfl row.ordinal _ (List.getElem?_eq_getElem hlt)
    obtain rfl : row = row' := Option.some_inj.mp (hlookup.symm.trans hrow')
    exact ⟨_, List.getElem?_eq_getElem hlt, by rw [Function.comp, readFile_localFile, hfacts]⟩
  · obtain ⟨row, hrow, havailable, -⟩ :=
      hshows.files entry rfl ordinal _ (List.getElem?_eq_getElem hlt)
    have hkey : row.sourceId = sourceId ∧ row.manifestVersion = entry.version
        ∧ row.ordinal = ordinal := by
      simpa [SourceFileRow.key] using (lookup_eq_some_mem hrow).2
    exact ⟨row, mem_versionFiles.mpr ⟨(lookup_eq_some_mem hrow).1, hkey.1, hkey.2.1,
      havailable⟩, hkey.2.2⟩

/-- A source shows no files of another version. -/
theorem allFiles_eq_nil (hunique : UniqueKey SourceFileRow.key files) {entry : Option Entry}
    (hshows : Shows files sourceId entry) (hversion : entry.map Entry.version ≠ some version) :
    allFiles files sourceId version = [] := by
  have hnone : versionFiles files sourceId version = [] := by
    refine List.eq_nil_iff_forall_not_mem.mpr fun row hrow => hversion ?_
    obtain ⟨e, rfl, rfl, -⟩ := hshows.available _ _ row (lookup_of_versionFiles hunique hrow)
      (mem_versionFiles.mp hrow).2.2.2
    rfl
  rw [allFiles, hnone]
  rfl

end

/-! ### The reads of an evaluation -/

section

variable (codec : QbitCodec) (scanCodec : ScanCodec) (roots : String → Option DataRoot)

/-- The numbers of the events before which the statements of an evaluation are executed. -/
structure Times where
  torrents : ℕ
  data : ℕ
  files : ℕ → ℕ

/-- The state before the event with a number. -/
def worldAt (events : List Event) (n : ℕ) : World :=
  run codec scanCodec roots World.init (events.take n)

/-- What the statements of an evaluation read, when they are executed at some times. The facts of
the sources may be any. -/
def readsAt (events : List Event) (facts : Facts × Facts) (times : Times) : Reads where
  torrents := ((worldAt codec scanCodec roots events times.torrents).store, facts.1)
  data := ((worldAt codec scanCodec roots events times.data).store, facts.2)
  files i := (worldAt codec scanCodec roots events (times.files i)).store

end

section

variable {codec : QbitCodec} {scanCodec : ScanCodec} {roots : String → Option DataRoot}

theorem run_run (world : World) (before after : List Event) :
    run codec scanCodec roots world (before ++ after)
      = run codec scanCodec roots (run codec scanCodec roots world before) after :=
        List.foldl_append

/-- The log grows, and the identifiers stay. -/
theorem grows_run (world : World) (events : List Event) :
    world.log <+: (run codec scanCodec roots world events).log
      ∧ KeepsIds world.store (run codec scanCodec roots world events).store := by
  induction events using List.reverseRecOn with
  | nil => exact ⟨List.prefix_rfl, .refl _⟩
  | append_singleton events event ih =>
    rw [run_append]
    refine ⟨ih.1.trans ?_, ih.2.trans (keepsIds_apply _ event)⟩
    cases event with
    | manifest event => exact List.prefix_append _ _
    | scan event => exact List.prefix_append _ _

theorem grows_worldAt (events : List Event) (n : ℕ) :
    (worldAt codec scanCodec roots events n).log <+:
      (run codec scanCodec roots World.init events).log
      ∧ KeepsIds (worldAt codec scanCodec roots events n).store
        (run codec scanCodec roots World.init events).store := by
  have hrun :=
    @grows_run codec scanCodec roots (worldAt codec scanCodec roots events n) (events.drop n)
  rw [worldAt, ← run_run, List.take_append_drop] at hrun
  exact hrun

theorem inv_worldAt {events : List Event}
    (hapart : IdsApart (run codec scanCodec roots World.init events).store) (n : ℕ) :
      Inv scanCodec (worldAt codec scanCodec roots events n).sys
      (worldAt codec scanCodec roots events n).log :=
  inv_run (events.take n) ((grows_worldAt events n).2.idsApart hapart)

/-- The files are those of a publication of the source, all of them. -/
def OfPublication (log : List Entry) (sourceId : Id) (files : List LocalSourceFile) : Prop :=
  ∃ entry ∈ log, entry.sourceId = sourceId ∧ files.map readFile = entry.files.map publishedFile

/-- The source still has the version that the query listed, or one of its versions has no files. -/
def StillCurrent (log log' : List Entry) (sourceId : Id) (version : ℕ) : Prop :=
  (current log sourceId).map Entry.version = some version
    ∨ ∃ entry ∈ log', entry.sourceId = sourceId ∧ entry.files = []

theorem worldAt_take {events : List Event} {n stop : ℕ} (h : n ≤ stop) :
    worldAt codec scanCodec roots (events.take stop) n =
      worldAt codec scanCodec roots events n := by
  rw [worldAt, List.take_take, min_eq_left h]
  rfl

theorem ofPublication_allFiles_iff {events : List Event} {n stop : ℕ}
    (hapart : IdsApart (worldAt codec scanCodec roots events stop).store)
    (hn : n ≤ stop) (sourceId : Id) (version : ℕ) :
    OfPublication (worldAt codec scanCodec roots events stop).log sourceId
        (allFiles (worldAt codec scanCodec roots events n).store.files sourceId version)
      ↔ StillCurrent (worldAt codec scanCodec roots events n).log
        (worldAt codec scanCodec roots events stop).log sourceId version := by
  have hinv := @inv_worldAt codec scanCodec roots (events.take stop) hapart n
  have hgrows := @grows_worldAt codec scanCodec roots (events.take stop) n
  rw [worldAt_take hn] at hinv hgrows
  have hshows := hinv.shows sourceId
  unfold StillCurrent
  by_cases hversion : (current (worldAt codec scanCodec roots events n).log
    sourceId).map Entry.version
      = some version
  · obtain ⟨entry, hentry, rfl⟩ := Option.map_eq_some_iff.mp hversion
    obtain ⟨hmem, hsource⟩ := current_mem hentry
    rw [hentry] at hshows
    exact iff_of_true ⟨entry, hgrows.1.subset hmem, hsource,
      allFiles_of_shows hinv.manifest.files hshows⟩
      (.inl hversion)
  · rw [or_iff_right hversion]
    have hnil : allFiles (worldAt codec scanCodec roots events n).store.files sourceId version =
        [] :=
      allFiles_eq_nil hinv.manifest.files hshows hversion
    unfold OfPublication
    rw [hnil]
    refine exists_congr fun entry => and_congr_right fun _ => and_congr_right fun _ => ?_
    rw [List.map_nil, eq_comm, List.map_eq_nil_iff]

/-- **The reads of an evaluation.** Whatever the loads and the scans do between its statements and
after it: the files that the matcher gets of a source that is complete and loaded are those of a
publication of the source, among the publications up to the end of the evaluation, if, and only if,
when its files are read the source still has the version that the query listed, or one of these
publications has no files. -/
theorem reads_published_iff (codec : QbitCodec) (scanCodec : ScanCodec)
    (roots : String → Option DataRoot) (events : List Event) (facts : Facts × Facts) (times : Times)
    (stop : ℕ) (loaded : LoadedCandidate) (sources sources' : List LoadedSource)
    (hstop : ∀ i < sources.length, times.files i ≤ stop)
    (hapart : IdsApart (worldAt codec scanCodec roots events stop).store)
    (hselected : selected loaded (readsAt codec scanCodec roots events facts times) = .ok sources)
    (hloaded : candidateSources loaded (readsAt codec scanCodec roots events facts times)
      = .ok (.loaded sources')) :
    ∀ i source, sources[i]? = some source → needsFiles loaded.manifest source = true →
      ∃ source', sources'[i]? = some source' ∧ source'.manifest.id = source.manifest.id
        ∧ (OfPublication (worldAt codec scanCodec roots events stop).log source.manifest.id
          source'.manifest.files
          ↔ StillCurrent (worldAt codec scanCodec roots events (times.files i)).log
            (worldAt codec scanCodec roots events stop).log source.manifest.id
              source.manifestVersion) := by
  intro i source hsource hneeds
  obtain ⟨hfits, hover⟩ := candidateSources_eq hselected
  have hbudget : FitsBudget loaded sources
      ∧ ReadsFit loaded (readsAt codec scanCodec roots events facts times) sources := by
    by_contra h
    rw [hover h] at hloaded
    cases hloaded
  rw [hfits hbudget.1 hbudget.2] at hloaded
  obtain rfl := CandidateSources.loaded.inj (Except.ok.inj hloaded)
  refine ⟨withFiles loaded.manifest (worldAt codec scanCodec roots events (times.files i)).store
    source, ?_, ?_, ?_⟩
  · rw [loadedSources, List.getElem?_mapIdx, hsource]
    rfl
  · unfold withFiles
    split <;> rfl
  · rw [withFiles, if_pos hneeds]
    exact ofPublication_allFiles_iff hapart (hstop i (List.getElem?_eq_some_iff.mp hsource).1)
      source.manifest.id
      source.manifestVersion

end

/-! ### A load between two reads -/

/-- The identifier of the film's torrent in the store. -/
def filmId : Id := sourceId QbitCodec.ascii QbitSync.downloadingTorrent.hash

/-- The load of a manifest with one file. -/
def filmLoad (name : String) : List Event :=
  [.manifest (.prepare filmId), .manifest (.stage [⟨0, name, 10⟩]), .manifest (.publish 20)]

/-- A torrent of a film that is complete; its manifest is loaded, and loaded again under another
name. -/
def filmEvents : List Event :=
  [.manifest (.change 1 true 10 { QbitSync.downloadingTorrent with
    amountLeft := 0, progress := 1, state := "uploading", completionOn := 5 }.change)]
    ++ filmLoad "Film.2020.mkv" ++ filmLoad "Film.mkv"

/-- The film as a candidate, without an info hash. -/
def filmWanted : LoadedCandidate :=
  { filmCandidate with manifest := { filmCandidate.manifest with hashes := ⟨none, none⟩ } }

/-- The evaluation of the film, with its files read at some moment. -/
def filmReads (filesAt : ℕ) : Reads :=
  readsAt QbitCodec.ascii ScanCodec.serde (fun _ => none) filmEvents
    (replace Facts.empty filmId "qbittorrent" filmRelease, Facts.empty) ⟨4, 4, fun _ => filesAt⟩

/-- The film as the query lists it after the first load, and as the matcher gets it. -/
def filmListed (files : List LocalSourceFile) : LoadedSource where
  complete := true
  manifestLoaded := true
  manifestVersion := 1
  fileCount := 1
  manifest := ⟨filmId, .qbittorrentTorrent, filmRelease,
    ⟨some (BitVec.ofNat 160 (16 ^ 40 / 15 * 10)), none⟩,
    files, true⟩

/-- The state after the two loads. -/
def filmWorld : World := run QbitCodec.ascii ScanCodec.serde (fun _ => none) World.init filmEvents

theorem idsApart_film : IdsApart filmWorld.store := by decide +kernel

theorem selected_film (filesAt : ℕ) :
    selected filmWanted (filmReads filesAt) = .ok [filmListed []] := by
  have hselected : selected filmWanted (filmReads 4) = .ok [filmListed []] := by decide +kernel
  exact hselected

/-- A film whose manifest is published again between the query and the read of the files: the
matcher gets it as complete and loaded without any files, although both publications have a file. -/
theorem reads_film_nil :
    candidateSources filmWanted (filmReads 7) = .ok (.loaded [filmListed []])
      ∧ needsFiles filmWanted.manifest (filmListed []) = true
      ∧ filmWorld.log.map (fun entry => (entry.sourceId, entry.version, entry.files.length))
          = [(filmId, 1, 1), (filmId, 2, 1)]
      ∧ ¬ OfPublication filmWorld.log filmId [] := by
  have hlog : filmWorld.log.map (fun entry => (entry.sourceId, entry.version, entry.files.length))
      = [(filmId, 1, 1), (filmId, 2, 1)] := by decide +kernel
  refine ⟨by decide +kernel, by decide +kernel, hlog, ?_⟩
  rintro ⟨entry, hentry, -, hfiles⟩
  have hnil : entry.files = [] := List.map_eq_nil_iff.mp hfiles.symm
  have hmem := List.mem_map_of_mem (f := fun entry => (entry.sourceId, entry.version,
    entry.files.length)) hentry
  rw [hlog] at hmem
  simp [hnil] at hmem

/-- The film with its files read before the second load, by an evaluation that ends after that load.
-/
theorem reads_published_iff_film :
    ∃ source', [filmListed [⟨1, "Film.2020.mkv".toList, 10, none, none⟩]][0]? = some source'
      ∧ source'.manifest.id = filmId
      ∧ (OfPublication filmWorld.log filmId source'.manifest.files
        ↔ StillCurrent (worldAt QbitCodec.ascii ScanCodec.serde (fun _ => none) filmEvents 4).log
          filmWorld.log
            filmId 1) :=
  reads_published_iff QbitCodec.ascii ScanCodec.serde (fun _ => none) filmEvents
    (replace Facts.empty filmId "qbittorrent" filmRelease, Facts.empty) ⟨4, 4,
      fun _ => 4⟩ 7 filmWanted
    [filmListed []] _ (fun _ _ =>
      (by decide : 4 ≤ 7)) idsApart_film (selected_film 4) (by decide +kernel) 0 (filmListed []) rfl
    (by decide +kernel)

end Sporos.Service.EvaluationReads
