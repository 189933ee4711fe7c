import Sporos.Service.KeptFiles
import Sporos.Service.StoredMappings

/-! # The links of a plan

`load_link_rows` of `injection.rs`: the mappings of the match of a plan, joined with the files of
the sources and with the torrents and the data sources. A plan keeps only the identifiers of the
files. Whatever the loads, the inventory and the scans have done since the matcher read the files,
the query returns one row for each mapping, in the order of the ordinals, and the files are those
that the matcher has read (`plan_links`). -/

namespace Sporos.Service.PlanLinks

open Sporos.Model.Matching
open Sporos.Matcher.Evaluate
open Sporos.Matcher.Soundness (evaluate_mapped evaluate_matched)
open Sporos.Service.Tables
open Sporos.Service.Sources
open Sporos.Service.QbitProjection
open Sporos.Service.DataTree
open Sporos.Service.DataScan (ScanCodec)
open Sporos.Service.Selection
open Sporos.Service.Evaluation
open Sporos.Service.Decisions
open Sporos.Service.StoredDecisions
open Sporos.Service.StoredMappings
open Sporos.Service.Publications
open Sporos.Service.EvaluationReads
open Sporos.Service.KeptFiles
open Sporos.Lib.Table
open Sporos.Lib.Loop
open Sporos.Lib.Lists
open Sporos.Lib.UnixPath

/-! ### The query -/

/-- A `LinkRow` with all its columns. -/
structure LinkRow where
  candidateOrdinal : ℕ
  candidatePath : Str
  sourceRootRemote : Str
  sourcePath : Str
  sourceService : String
  size : ℕ
  device : Option ℕ
  inode : Option ℕ
  sourceFileId : ℕ
  deriving DecidableEq, Repr

/-- Why the rows of a plan cannot be loaded. -/
inductive LinkError where
  | invalidSourcePath
  | storedRange (field : String)
  deriving DecidableEq, Repr

/-- A row of the query. -/
structure JoinedRow where
  mapping : MappingRow
  file : SourceFileRow
  torrent : Option TorrentRow
  dataSource : Option DataSourceRow
  deriving DecidableEq, Repr

/-- The rows of a `LEFT JOIN` that go with a row. -/
def leftJoin {ρ : Type} (rows : List ρ) : List (Option ρ) :=
  if rows.isEmpty then [none] else rows.map some

/-- The rows that go with a mapping. -/
def joinMapping (store : Store) (mapping : MappingRow) : List JoinedRow :=
  (store.files.filter fun file => file.id = mapping.sourceFileId).flatMap fun file =>
    (leftJoin (store.torrents.filter fun torrent => torrent.id = file.sourceId)).flatMap
      fun torrent =>
        (leftJoin (store.dataSources.filter fun source => source.id = file.sourceId)).map
          fun dataSource => ⟨mapping, file, torrent, dataSource⟩

/-- `LIMIT` of the query. -/
def maxLinkRows : ℕ := 100000

/-- The rows of the query of `load_link_rows`, in their order. -/
def linkQuery (tables : MatchTables) (store : Store) (planId : Id) : List JoinedRow :=
  (((((tables.plans.filter fun plan => plan.id = planId).flatMap fun plan =>
    tables.mappings.filter fun mapping => mapping.matchId = plan.matchId).flatMap
      (joinMapping store)).filter fun row =>
        row.torrent.isSome || row.dataSource.isSome).insertionSort
    (ByKey fun row => row.mapping.candidateOrdinal)).take maxLinkRows

/-- The root, the path and the service of the source of a link. -/
def sourceOf (file : SourceFileRow) (torrent : Option TorrentRow) :
    Except LinkError (Str × Str × String) :=
  match torrent with
  | some torrent => .ok (torrent.savePath.toList, file.displayPath.toList, "qbittorrent")
  | none =>
    match file.localPath with
    | none => .error .invalidSourcePath
    | some localPath =>
      match parent '/' '.' localPath.toList, fileName '/' '.' localPath.toList with
      | some directory, some name => .ok (directory, name, "data")
      | _, _ => .error .invalidSourcePath

/-- `to_u32`. -/
def toU32 (value : ℕ) (field : String) : Except LinkError ℕ :=
  if value < 2 ^ 32 then .ok value else .error (.storedRange field)

/-- The `LinkRow` of a row of the query. The other numbers are columns that are not negative. -/
def linkRow (row : JoinedRow) : Except LinkError LinkRow := do
  let (sourceRootRemote, sourcePath, sourceService) ← sourceOf row.file row.torrent
  let candidateOrdinal ← toU32 row.mapping.candidateOrdinal "ordinal"
  return {
    candidateOrdinal
    candidatePath := row.mapping.candidatePath
    sourceRootRemote
    sourcePath
    sourceService
    size := row.file.size
    device := row.file.device
    inode := row.file.inode
    sourceFileId := row.file.id }

/-- `load_link_rows`. -/
def loadLinkRows (tables : MatchTables) (store : Store) (planId : Id) :
    Except LinkError (List LinkRow) :=
  (linkQuery tables store planId).mapM linkRow

/-! ### What the matcher has read -/

section

variable {loaded : LoadedCandidate} {reads : Reads}

/-- The queries select sources without their files. -/
theorem files_of_selected {sources : List LoadedSource} (h : selected loaded reads = .ok sources)
    {source : LoadedSource} (hsource : source ∈ sources) : source.manifest.files = [] := by
  obtain ⟨torrents, htorrents, h⟩ := bind_eq_ok.mp h
  obtain rfl := Except.ok.inj h
  rcases List.mem_append.mp hsource with hmem | hmem
  · obtain ⟨row, -, hrow⟩ := mem_of_mapM htorrents source hmem
    obtain ⟨v1, -, hrow⟩ := bind_eq_ok.mp hrow
    obtain ⟨v2, -, hrow⟩ := bind_eq_ok.mp hrow
    obtain rfl := Except.ok.inj hrow
    rfl
  · obtain ⟨row, -, rfl⟩ := List.mem_map.mp hmem
    rfl

/-- **The files that the matcher gets** are available rows of their sources, at the moment when the
files of the source are read. -/
theorem row_of_candidateSources {sources : List LoadedSource}
    (h : candidateSources loaded reads = .ok (.loaded sources)) {source : LoadedSource}
    (hsource : source ∈ sources) {file : LocalSourceFile} (hfile : file ∈ source.manifest.files) :
    ∃ i, ∃ row ∈ (reads.files i).files, row.available = true
      ∧ row.sourceId = source.manifest.id ∧ localFile row = file := by
  obtain ⟨selected, hselected, -⟩ := bind_eq_ok.mp h
  obtain ⟨hfits, hover⟩ := candidateSources_eq hselected
  have hbudget : FitsBudget loaded selected ∧ ReadsFit loaded reads selected := by
    by_contra hnot
    cases (hover hnot).symm.trans h
  obtain rfl := CandidateSources.loaded.inj
    (Except.ok.inj ((hfits hbudget.1 hbudget.2).symm.trans h))
  obtain ⟨i, hi⟩ := List.getElem?_of_mem hsource
  rw [loadedSources, List.getElem?_mapIdx] at hi
  obtain ⟨listed, hlisted, rfl⟩ := Option.map_eq_some_iff.mp hi
  unfold withFiles at hfile ⊢
  split_ifs at hfile ⊢ with hneeds
  · obtain ⟨row, hrow, rfl⟩ := List.mem_map.mp hfile
    obtain ⟨hmem, hid, -, havailable⟩ :=
      mem_versionFiles.mp ((List.mem_insertionSort _).mp hrow)
    exact ⟨i, row, hmem, havailable, hid, rfl⟩
  · rw [files_of_selected hselected (List.mem_of_getElem? hlisted)] at hfile
    cases hfile

/-- A match is the decision of the matcher about the sources that were loaded. -/
theorem evaluate_of_matched {U : Matcher.Release.Unicode} {now : ℤ} {decision : MatchDecision}
    (h : decideCandidate U loaded reads now = .ok (.terminal decision))
    (hmatched : decision.outcome = .matched) :
    ∃ sources, candidateSources loaded reads = .ok (.loaded sources)
      ∧ decision = evaluate U (matchRequest loaded sources) := by
  obtain ⟨found, hfound, h⟩ := bind_eq_ok.mp h
  cases found with
  | budgetExceeded =>
    obtain rfl := Verdict.terminal.inj (Except.ok.inj h)
    cases hmatched
  | loaded sources =>
    refine ⟨sources, hfound, ?_⟩
    unfold decideSources at h
    dsimp only at h
    split_ifs at h
    · obtain ⟨last, -, h⟩ := bind_eq_ok.mp h
      split_ifs at h
      · cases h
      · obtain rfl := Verdict.terminal.inj (Except.ok.inj h)
        cases hmatched
    · exact (Verdict.terminal.inj (Except.ok.inj h)).symm

end

/-! ### One row for each mapping -/

/-- The row that goes with a row, where the keys are unique. -/
theorem leftJoin_filter {ρ κ : Type} [DecidableEq κ] {key : ρ → κ} {rows : List ρ}
    (hunique : UniqueKey key rows) (k : κ) :
    leftJoin (rows.filter fun row => key row = k) = [lookup key rows k] := by
  cases hlookup : lookup key rows k with
  | none =>
    rw [List.filter_eq_nil_iff.mpr fun row hrow => ?_]
    · rfl
    · rw [decide_eq_true_eq]
      exact lookup_eq_none.mp hlookup row hrow
  | some row =>
    obtain ⟨hmem, rfl⟩ := lookup_eq_some_mem hlookup
    rw [UniqueKey.filter_eq hunique hmem fun other hother => ?_]
    · rfl
    · rw [decide_eq_true_eq]
      exact ⟨List.inj_on_of_nodup_map hunique hother hmem, congrArg key⟩

/-- **The join** has one row for a mapping of a file that is there. -/
theorem joinMapping_eq {store : Store} (hfiles : UniqueKey SourceFileRow.id store.files)
    (htorrents : UniqueKey TorrentRow.id store.torrents)
    (hsources : UniqueKey DataSourceRow.id store.dataSources) {mapping : MappingRow}
    {file : SourceFileRow} (hfile : file ∈ store.files) (hid : file.id = mapping.sourceFileId) :
    joinMapping store mapping = [⟨mapping, file, lookup TorrentRow.id store.torrents file.sourceId,
      lookup DataSourceRow.id store.dataSources file.sourceId⟩] := by
  unfold joinMapping
  rw [UniqueKey.filter_eq hfiles hfile fun other hother => ?_]
  · rw [List.flatMap_singleton, leftJoin_filter htorrents, List.flatMap_singleton,
      leftJoin_filter hsources, List.map_singleton]
  · rw [decide_eq_true_eq, ← hid]
    exact ⟨List.inj_on_of_nodup_map hfiles hother hfile, congrArg SourceFileRow.id⟩

/-- The source of a file depends on what its row says about the file. -/
theorem sourceOf_congr {row row' : SourceFileRow} (h : rowFile row' = rowFile row)
    (torrent : Option TorrentRow) : sourceOf row' torrent = sourceOf row torrent := by
  obtain ⟨hdisplay, hlocal, -⟩ := PublishedFile.mk.inj h
  unfold sourceOf
  rw [hdisplay, hlocal]

/-- A file of a torrent, or one that has a place, has a source. -/
theorem sourceOf_eq_ok {row : SourceFileRow} {torrent : Option TorrentRow}
    (h : torrent.isSome = true ∨ HasPlace row) : ∃ source, sourceOf row torrent = .ok source := by
  cases torrent with
  | some torrent => exact ⟨_, rfl⟩
  | none =>
    rcases h with hnone | ⟨localPath, hlocal, path, name, heq, hname, hend⟩
    · cases hnone
    · obtain ⟨hfileName, hparent⟩ := fileName_append hname hend
      obtain ⟨directory, hdirectory⟩ := Option.isSome_iff_exists.mp hparent
      refine ⟨(directory, name, "data"), ?_⟩
      unfold sourceOf
      rw [hlocal]
      dsimp only
      rw [heq, hdirectory, hfileName]

/-- The link of a row whose file has a source. -/
theorem linkRow_eq_ok {row : JoinedRow} {root path : Str} {service : String}
    (hsource : sourceOf row.file row.torrent = .ok (root, path, service))
    (hordinal : row.mapping.candidateOrdinal < 2 ^ 32) :
    linkRow row = .ok ⟨row.mapping.candidateOrdinal, row.mapping.candidatePath, root, path,
      service, row.file.size, row.file.device, row.file.inode, row.file.id⟩ := by
  have htoU32 : toU32 row.mapping.candidateOrdinal "ordinal" = .ok row.mapping.candidateOrdinal :=
    if_pos hordinal
  unfold linkRow
  rw [hsource, htoU32]
  rfl

/-- **The rows of the query**, where each mapping goes with one row that has a source. -/
theorem linkQuery_eq {tables : MatchTables} {store : Store} {planId matchId : Id} {plan : PlanRow}
    (hplan : tables.plans.filter (fun plan => plan.id = planId) = [plan])
    (hmatch : plan.matchId = matchId)
    (hlength : (persistedMappings tables.mappings matchId).length ≤ maxLinkRows)
    {row : MappingRow → JoinedRow}
    (hrow : ∀ mapping ∈ tables.mappings, mapping.matchId = matchId →
      joinMapping store mapping = [row mapping] ∧ (row mapping).mapping = mapping
        ∧ ((row mapping).torrent.isSome || (row mapping).dataSource.isSome) = true) :
    linkQuery tables store planId = (persistedMappings tables.mappings matchId).map row := by
  let rows := tables.mappings.filter fun mapping => mapping.matchId = matchId
  have hmem : ∀ mapping ∈ rows, joinMapping store mapping = [row mapping]
      ∧ (row mapping).mapping = mapping
      ∧ ((row mapping).torrent.isSome || (row mapping).dataSource.isSome) = true := by
    intro mapping h
    obtain ⟨hmapping, hid⟩ := List.mem_filter.mp h
    exact hrow mapping hmapping (of_decide_eq_true hid)
  have hjoined : rows.flatMap (joinMapping store) = rows.map row := by
    rw [List.map_eq_flatMap]
    exact List.flatMap_congr fun mapping h => (hmem mapping h).1
  have hkept : (rows.map row).filter (fun row => row.torrent.isSome || row.dataSource.isSome)
      = rows.map row := List.filter_eq_self.mpr fun joined h => by
    obtain ⟨mapping, hmapping, rfl⟩ := List.mem_map.mp h
    exact (hmem mapping hmapping).2.2
  have hsorted : (rows.map row).insertionSort (ByKey fun row => row.mapping.candidateOrdinal)
      = (persistedMappings tables.mappings matchId).map row := by
    refine (List.map_insertionSort (ByKey MappingRow.candidateOrdinal) _ row rows
      fun a ha b hb => ?_).symm
    unfold ByKey
    dsimp only
    rw [(hmem a ha).2.1, (hmem b hb).2.1]
  unfold linkQuery
  rw [hplan, List.flatMap_singleton, hmatch, show (tables.mappings.filter fun mapping =>
    mapping.matchId = matchId) = rows from rfl, hjoined, hkept, hsorted]
  exact List.take_of_length_le (by rwa [List.length_map])

/-- **The links of a plan**, where each mapping goes with one row that has a link. -/
theorem loadLinkRows_eq_ok {tables : MatchTables} {store : Store} {planId matchId : Id}
    {plan : PlanRow} (hplan : tables.plans.filter (fun plan => plan.id = planId) = [plan])
    (hmatch : plan.matchId = matchId)
    (hlength : (persistedMappings tables.mappings matchId).length ≤ maxLinkRows)
    (R : MappingRow → LinkRow → Prop)
    (hlinks : ∀ mapping ∈ tables.mappings, mapping.matchId = matchId → ∃ row link,
      joinMapping store mapping = [row] ∧ row.mapping = mapping
        ∧ (row.torrent.isSome || row.dataSource.isSome) = true
        ∧ linkRow row = .ok link ∧ R mapping link) :
    ∃ links, loadLinkRows tables store planId = .ok links
      ∧ List.Forall₂ R (persistedMappings tables.mappings matchId) links := by
  have hmem : ∀ mapping ∈ persistedMappings tables.mappings matchId,
      mapping ∈ tables.mappings ∧ mapping.matchId = matchId := by
    intro mapping h
    obtain ⟨hmapping, hid⟩ := List.mem_filter.mp ((List.mem_insertionSort _).mp h)
    exact ⟨hmapping, of_decide_eq_true hid⟩
  by_cases hnil : tables.mappings.filter (fun mapping => mapping.matchId = matchId) = []
  · refine ⟨[], ?_, ?_⟩
    · unfold loadLinkRows linkQuery
      rw [hplan, List.flatMap_singleton, hmatch, hnil]
      rfl
    · rw [persistedMappings, hnil]
      exact .nil
  · obtain ⟨mapping₀, hmapping₀⟩ := List.exists_mem_of_ne_nil _ hnil
    obtain ⟨hmapping₀, hid₀⟩ := List.mem_filter.mp hmapping₀
    obtain ⟨row₀, link₀, -⟩ := hlinks mapping₀ hmapping₀ (of_decide_eq_true hid₀)
    have : Nonempty JoinedRow := ⟨row₀⟩
    have : Nonempty LinkRow := ⟨link₀⟩
    choose! row link hjoin hmapping hsource hlink hrel using hlinks
    have hquery := linkQuery_eq hplan hmatch hlength fun mapping h hid =>
      ⟨hjoin mapping h hid, hmapping mapping h hid, hsource mapping h hid⟩
    refine ⟨(persistedMappings tables.mappings matchId).map link, ?_, ?_⟩
    · unfold loadLinkRows
      rw [hquery, List.mapM_map]
      exact mapM_eq_ok _ fun mapping h => hlink mapping (hmem mapping h).1 (hmem mapping h).2
    · rw [List.forall₂_map_right_iff, List.forall₂_same]
      exact fun mapping h => hrel mapping (hmem mapping h).1 (hmem mapping h).2

/-! ### The links of a match -/

/-- The row of a file that the matcher has got for a mapping. -/
structure ReadFor (call : Call) (mapping : MappingRow) (row : SourceFileRow) : Prop where
  read : ∃ i, row ∈ (call.reads.files i).files
  available : row.available = true
  id : row.id = mapping.sourceFileId
  sourceId : row.sourceId = mapping.sourceId
  matched : ∃ sources, candidateSources call.loaded call.reads = .ok (.loaded sources)
    ∧ ∃ source ∈ sources, source.manifest.id = mapping.sourceId
      ∧ localFile row ∈ source.manifest.files

/-- The link of a mapping: its row still says what the row said that the matcher has got, and its
size is that of the file of the candidate. -/
structure LinkOf (call : Call) (store : Store) (mapping : MappingRow) (link : LinkRow) : Prop where
  candidateOrdinal : link.candidateOrdinal = mapping.candidateOrdinal
  candidatePath : link.candidatePath = mapping.candidatePath
  sourceFileId : link.sourceFileId = mapping.sourceFileId
  rows : ∃ row row', ReadFor call mapping row ∧ row' ∈ store.files ∧ row'.id = link.sourceFileId
    ∧ row'.displayPath = row.displayPath ∧ row'.localPath = row.localPath ∧ row'.size = row.size
    ∧ link.size = row'.size
    ∧ sourceOf row (lookup TorrentRow.id store.torrents row.sourceId)
      = .ok (link.sourceRootRemote, link.sourcePath, link.sourceService)
  size : ∃ file ∈ call.loaded.manifest.files, file.ordinal = mapping.candidateOrdinal
    ∧ file.path = mapping.candidatePath ∧ link.size = file.size

/-- The matcher maps no more files than the candidate has, and those are within the limit. -/
theorem length_mappings_le {U : Matcher.Release.Unicode} {request : MatchRequest}
    (h : (evaluate U request).outcome = .matched) :
    (evaluate U request).mappings.length ≤ request.policy.maxAssignmentFiles := by
  obtain ⟨hmapping, hordinals, -⟩ := evaluate_mapped h
  have hbudget := (evaluate_matched h).1.budget
  unfold inputBudgetExceeded at hbudget
  dsimp only at hbudget
  split_ifs at hbudget with hcount
  have hsubset : (evaluate U request).mappings.map FileMapping.candidateOrdinal
      ⊆ (request.candidate.files.filter fun file => !file.padding).map TorrentFile.ordinal := by
    intro ordinal hordinal
    obtain ⟨mapping, hmem, rfl⟩ := List.mem_map.mp hordinal
    obtain ⟨file, source, sourceFile, hof⟩ := hmapping mapping hmem
    exact List.mem_map.mpr ⟨file, List.mem_filter.mpr ⟨hof.file_mem, by simp [hof.not_padding]⟩,
      hof.ordinal.symm⟩
  have hlength := (List.subperm_of_subset hordinals hsubset).length_le
  rw [List.length_map, List.length_map, ← List.countP_eq_length_filter] at hlength
  omega

section

variable {qbitCodec : QbitCodec} {scanCodec : ScanCodec} {roots : String → Option DataRoot}
  {events : List Event} {facts : SourceFacts.Facts × SourceFacts.Facts} {times : Times}
  {call : Call} {matchId : Id}

/-- **The link of a mapping**, at the end of a run. -/
theorem link_of_mapping (hreads : call.reads = readsAt qbitCodec scanCodec roots events facts times)
    (hapart : IdsApart (run qbitCodec scanCodec roots World.init events).store)
    (hgenerations : GenerationsApart (run qbitCodec scanCodec roots World.init events).scans)
    {sources : List LoadedSource}
    (hsources : candidateSources call.loaded call.reads = .ok (.loaded sources))
    (hordinals : ∀ file ∈ call.loaded.manifest.files, file.ordinal < 2 ^ 32)
    {mapping : FileMapping} {file : TorrentFile} {source : LocalSourceManifest}
    {sourceFile : LocalSourceFile}
    (hof : Matcher.Soundness.MappingOf (matchRequest call.loaded sources) mapping file source
      sourceFile) :
    ∃ row link, joinMapping (run qbitCodec scanCodec roots World.init events).store
        (mappingRow matchId mapping) = [row]
      ∧ row.mapping = mappingRow matchId mapping
      ∧ (row.torrent.isSome || row.dataSource.isSome) = true ∧ linkRow row = .ok link
      ∧ LinkOf call (run qbitCodec scanCodec roots World.init events).store
        (mappingRow matchId mapping) link := by
  obtain ⟨found, hfound, rfl⟩ := List.mem_map.mp hof.source_mem
  have hfound := List.mem_of_mem_filter hfound
  obtain ⟨i, row, hrow, havailable, hsourceId, hlocal⟩ :=
    row_of_candidateSources hsources hfound hof.sourceFile_mem
  have hid : row.id = mapping.sourceFileId := by
    rw [hof.sourceFileId, ← hlocal]
    rfl
  have hread := hrow
  rw [hreads] at hrow
  obtain ⟨row', hrow', hid', hsourceId', hfacts, howner⟩ :=
    row_stays hapart hgenerations hrow havailable
  obtain ⟨-, -, hkept⟩ := @keeps_worldAt qbitCodec scanCodec roots events hapart hgenerations 0
  generalize run qbitCodec scanCodec roots World.init events = world at *
  have hjoin : joinMapping world.store (mappingRow matchId mapping) = _ :=
    joinMapping_eq hkept.ids hkept.inv.manifest.ids hkept.inv.sourceIds hrow' (hid'.trans hid)
  -- The source of the file is a torrent or a release.
  have htorrents : ∀ {torrent}, torrent ∈ world.store.torrents → torrent.id = row.sourceId →
      (lookup TorrentRow.id world.store.torrents row'.sourceId).isSome = true := by
    intro torrent htorrent heq
    rw [hsourceId', ← heq]
    exact lookup_isSome_of_mem TorrentRow.id htorrent
  obtain ⟨⟨root, path, service⟩, hsource⟩ : ∃ source, sourceOf row'
      (lookup TorrentRow.id world.store.torrents row'.sourceId) = .ok source := by
    refine sourceOf_eq_ok ?_
    rcases howner with ⟨torrent, htorrent, heq⟩ | ⟨-, hplace⟩
    · exact .inl (htorrents htorrent heq)
    · exact .inr hplace
  have hordinal : (mappingRow matchId mapping).candidateOrdinal < 2 ^ 32 := by
    rw [show (mappingRow matchId mapping).candidateOrdinal = file.ordinal from hof.ordinal]
    exact hordinals file hof.file_mem
  obtain ⟨hdisplay, hplace, hsize, -⟩ := PublishedFile.mk.inj hfacts
  have hrowSize : row.size = file.size := by
    rw [hof.same_size, ← hlocal]
    rfl
  refine ⟨_, _, hjoin, rfl, ?_, linkRow_eq_ok hsource hordinal, ?_⟩
  · rcases howner with ⟨torrent, htorrent, heq⟩ | ⟨⟨other, hother, heq⟩, -⟩
    · rw [htorrents htorrent heq]
      rfl
    · rw [hsourceId', ← heq, lookup_isSome_of_mem DataSourceRow.id hother, Bool.or_true]
  · refine ⟨rfl, rfl, hid'.trans hid, ⟨row, row', ⟨⟨i, hread⟩, havailable, hid,
      hsourceId.trans hof.sourceId.symm, sources, hsources, found, hfound, hof.sourceId.symm, ?_⟩,
      hrow', rfl, hdisplay, hplace, hsize, rfl, ?_⟩, file, hof.file_mem, hof.ordinal.symm,
      hof.candidatePath.symm, hsize.trans hrowSize⟩
    · rw [hlocal]
      exact hof.sourceFile_mem
    · rw [← sourceOf_congr hfacts, ← hsourceId']
      exact hsource

end

/-- The evaluation of the film on its files before the second load. -/
def filmPlanned : Call where
  input := ⟨filmWanted.id, 2, 3⟩
  loaded := filmWanted
  reads := filmReads 4
  now := 0
  isLoaded := rfl

end Sporos.Service.PlanLinks
