import Sporos.Lib.UnixPath
import Sporos.Service.PieceLayout

/-! # Padding

The torrent parser takes a file of a v1 list for padding if the first name below the root is `.pad`,
gives it no number and does not return it. The ingress marks a file that the parser has returned as
padding if any name of its path is `.pad`, the name of the torrent among them. So every file that
the ingress marks is one that the layout of the pieces numbers; the two agree on a torrent exactly
when `.pad` is a name on the way to no such file (`padding_consistent_iff`). -/

namespace Sporos.Service.Padding

open Sporos.Lib.Loop Sporos.Lib.Table
open Sporos.Model.Matching (TorrentManifest)
open Sporos.Service.Tables Sporos.Service.Ingress Sporos.Service.Torrent Sporos.Service.PieceLayout

/-- No file with a number in the layout is marked as padding. -/
def PaddingConsistent (manifest : TorrentManifest) : Prop :=
  ∀ entry ∈ manifest.pieceFiles, ∀ ordinal, entry.fileOrdinal = some ordinal →
    ∀ file ∈ manifest.files, file.ordinal = ordinal → file.padding = false

/-- `.pad` is a name on the way to no file, up to those right below the root of a v1 list. The name
of the torrent counts, except for a tree with one file at its root. -/
def PadApart (info : Info) : Prop :=
  match info.v2, info.v1 with
  | some v2, _ => ∀ file ∈ flattenV2 [] v2.fileTree, padName ∉ file.path ∧
      (info.name ≠ padName ∨ ∃ component length piecesRoot,
        flattenV2 [] v2.fileTree = [⟨[component], length, piecesRoot⟩])
  | none, some ⟨.single _, _⟩ => info.name ≠ padName
  | none, some ⟨.multi files, _⟩ => ∀ file ∈ files,
      file.path.head? = some padName ∨ (info.name ≠ padName ∧ padName ∉ file.path)
  | none, none => True

/-- The ingress with the torrent parser, on what the bencode and the metainfo crates decode, and
with the decoder of UTF-8. -/
def serviceCodec (codec : Codec) (decodes : Bytes → Bool)
    (metainfo : Bytes → Option MetaInfo) : Codec :=
  { codec with
    parse := fun input => (Torrent.parse decodes metainfo input).toOption.map accepted
    fromUtf8 := fun text => (Lib.UnixPath.fromUtf8 text).map String.ofList }

/-! ### The files of the parser -/

/-- The v1 loop returns the files that are not padding. -/
theorem v1Loop_paths (raws : List RawFile) : ∀ {count offset : ℕ} {view : FileView},
    v1Loop count offset raws = .ok view →
    view.files.map TorrentFile.path = (raws.filter fun raw => !raw.padding).map RawFile.path := by
  induction raws with
  | nil =>
    intro count offset view h
    obtain rfl := Except.ok.inj h
    rfl
  | cons raw raws ih =>
    intro count offset view h
    unfold v1Loop at h
    obtain ⟨ordinal, -, h⟩ := bind_eq_ok.mp h
    obtain ⟨next, -, h⟩ := bind_eq_ok.mp h
    obtain ⟨rest, hrest, h⟩ := bind_eq_ok.mp h
    obtain rfl := Except.ok.inj h
    cases hpadding : raw.padding <;> simp [hpadding, ih hrest]

theorem v1Files_paths {name : Bytes} {layout : FileListV1} {view : FileView}
    (h : v1Files name layout = .ok view) :
    view.files.map TorrentFile.path = ((rawFiles name layout).filter fun raw =>
      !raw.padding).map RawFile.path := by
  obtain ⟨⟨⟩, -, h⟩ := bind_eq_ok.mp h
  exact v1Loop_paths _ h

theorem v2Files_files {name : Bytes} {pieceLength : ℕ} {tree : FileTreeNode} {view : FileView}
    (h : v2Files name pieceLength tree = .ok view) : view.files = v2Paths name tree := by
  obtain ⟨⟨⟩, -, h⟩ := bind_eq_ok.mp h
  obtain ⟨pieceFiles, -, h⟩ := bind_eq_ok.mp h
  rw [← Except.ok.inj h]

/-- The files of a v1 list that are not padding have no such name on the way if the list has none.
-/
theorem rawFiles_apart {name : Bytes} (files : List FileV1) :
    (∀ path ∈ ((rawFiles name (.multi files)).filter fun raw =>
      !raw.padding).map RawFile.path, padName ∉ path)
      ↔ ∀ file ∈ files, file.path.head? = some padName
        ∨ (name ≠ padName ∧ padName ∉ file.path) := by
  constructor
  · intro h file hfile
    by_cases hpad : file.path.head? = some padName
    · exact .inl hpad
    · have hraw := h (name :: file.path) (List.mem_map.mpr ⟨_, List.mem_filter.mpr
        ⟨List.mem_map_of_mem hfile, by simp [hpad]⟩, rfl⟩)
      rw [List.mem_cons, not_or] at hraw
      exact .inr ⟨Ne.symm hraw.1, hraw.2⟩
  · intro h path hpath
    obtain ⟨raw, hraw, rfl⟩ := List.mem_map.mp hpath
    obtain ⟨hmem, hpad⟩ := List.mem_filter.mp hraw
    obtain ⟨file, hfile, rfl⟩ := List.mem_map.mp hmem
    rcases h file hfile with hhead | ⟨hname, hnot⟩
    · simp [hhead] at hpad
    · rw [List.mem_cons, not_or]
      exact ⟨hname.symm, hnot⟩

/-- The files of a tree, with the name of the torrent before them unless one stands alone. -/
theorem v2Paths_apart (name : Bytes) (tree : FileTreeNode) :
    (∀ file ∈ v2Paths name tree, padName ∉ file.path) ↔
      ∀ file ∈ flattenV2 [] tree, padName ∉ file.path
        ∧ (name ≠ padName ∨ ∃ component length piecesRoot,
        flattenV2 [] tree = [⟨[component], length, piecesRoot⟩]) := by
  unfold v2Paths
  split
  · rename_i component length piecesRoot hsingle
    simp [hsingle]
  · rename_i hother
    have hnone : ¬∃ component length piecesRoot,
        flattenV2 [] tree = [⟨[component], length, piecesRoot⟩] := by
      rintro ⟨component, length, piecesRoot, heq⟩
      exact hother component length piecesRoot heq
    simp only [hnone, or_false, List.forall_mem_map, List.mem_cons, not_or]
    refine forall₂_congr fun file _ => ?_
    rw [and_comm, ne_comm]

/-- **The files that the parser returns** have `.pad` on the way to none of them exactly when the
torrent keeps it apart. -/
theorem parsed_apart_iff {metainfo : MetaInfo} {parsed : Torrent.ParsedTorrent}
    (h : parseMetainfo metainfo = .ok parsed) :
    (∀ file ∈ parsed.files, padName ∉ file.path) ↔ PadApart metainfo.info := by
  unfold parseMetainfo at h
  obtain ⟨⟨⟩, -, h⟩ := bind_eq_ok.mp h
  obtain ⟨view₁, hview₁, h⟩ := bind_eq_ok.mp h
  obtain ⟨view₂, hview₂, h⟩ := bind_eq_ok.mp h
  obtain ⟨⟨version, view⟩, hcombine, h⟩ := bind_eq_ok.mp h
  obtain rfl := Except.ok.inj h
  unfold PadApart
  rcases v2View_eq_ok hview₂ with ⟨hnone₂, rfl⟩ | ⟨v2, v2View, hv2, rfl, hfiles₂⟩
  · rcases v1View_eq_ok hview₁ with ⟨hnone₁, rfl⟩ | ⟨v1, v1View, hv1, rfl, hfiles₁, -⟩
    · cases hcombine
    · obtain ⟨rfl, rfl⟩ := Prod.mk.inj (Except.ok.inj hcombine)
      have hpaths : (∀ file ∈ v1View.files, padName ∉ file.path) ↔
          ∀ path ∈ v1View.files.map TorrentFile.path, padName ∉ path := by simp
      rw [hpaths, v1Files_paths hfiles₁, hnone₂, hv1]
      obtain ⟨layout, pieces⟩ := v1
      cases layout with
      | single length => simp [rawFiles, ne_comm]
      | multi files => exact rawFiles_apart files
  · -- The files of a hybrid torrent are those of its tree.
    have hview : view.files = v2View.files := by
      rcases v1View_eq_ok hview₁ with ⟨-, rfl⟩ | ⟨v1, v1View, -, rfl, -, -⟩
      · rw [← (Prod.mk.inj (Except.ok.inj hcombine)).2]
      · simp only [combine] at hcombine
        split_ifs at hcombine
        rw [← (Prod.mk.inj (Except.ok.inj hcombine)).2]
    rw [hv2]
    simp only [hview, v2Files_files hfiles₂]
    exact v2Paths_apart metainfo.info.name v2.fileTree

/-! ### The marks of the ingress -/

section

variable {codec : Codec} {decodes : Bytes → Bool} {decoded : Bytes → Option MetaInfo}
  {config : IngressConfig}

theorem padName_decoded {component : Bytes} {text : String}
    (h : (Lib.UnixPath.fromUtf8 component).map String.ofList = some text) : text = ".pad"
      ↔ component = padName := by
  obtain ⟨chars, hchars, rfl⟩ := Option.map_eq_some_iff.mp h
  have hbytes := Lib.UnixPath.fromUtf8_eq_some.mp hchars
  have hpad : padName = ".pad".toList.flatMap String.utf8EncodeChar := by decide
  rw [hbytes, hpad, show ".pad" = String.ofList ".pad".toList from rfl, String.ofList_inj]
  exact Lib.UnixPath.utf8_injective.eq_iff.symm

/-- A name is decoded to `.pad` if it is `.pad`. -/
theorem contains_padName : ∀ {path : List Bytes} {components : List String},
    path.mapM (fun text => (Lib.UnixPath.fromUtf8 text).map String.ofList) = some components →
    components.contains ".pad" = decide (padName ∈ path)
  | [], components, h => by
    obtain rfl : [] = components := Option.some.inj h
    simp
  | component :: path, components, h => by
    rw [List.mapM_cons] at h
    obtain ⟨text, htext, h⟩ := Option.bind_eq_some_iff.mp h
    obtain ⟨rest, hrest, h⟩ := Option.bind_eq_some_iff.mp h
    obtain rfl : text :: rest = components := Option.some.inj h
    have hpad := padName_decoded htext
    rw [List.contains_cons, contains_padName hrest, Bool.eq_iff_iff, Bool.or_eq_true, beq_iff_eq,
      decide_eq_true_eq, decide_eq_true_eq, List.mem_cons, eq_comm, hpad, eq_comm]

theorem manifestFile_padding {ordinal : ℕ} {file : ParsedFile} {result : Model.Matching.TorrentFile}
    (h : manifestFile (serviceCodec codec decodes decoded) config ordinal file = .ok result) :
    result.ordinal = ordinal ∧ result.padding = decide (padName ∈ file.path) := by
  unfold manifestFile at h
  split at h
  · cases h
  · rename_i components hcomponents
    simp only at h
    split_ifs at h
    obtain rfl := Except.ok.inj h
    exact ⟨rfl, contains_padName hcomponents⟩

theorem manifestFiles_padding {parsedFiles : List ParsedFile}
    {files : List Model.Matching.TorrentFile}
    (h : manifestFiles (serviceCodec codec decodes decoded) config 0 parsedFiles = .ok files) :
    files.map (fun file => (file.ordinal, file.padding))
      = parsedFiles.zipIdx.map fun entry => (entry.2, decide (padName ∈ entry.1.path)) :=
  map_manifestFiles (fun hfile => Prod.ext_iff.mpr (manifestFile_padding hfile)) h

/-- **The manifest of a parsed torrent** marks a numbered file exactly when `.pad` is on the way to
it. -/
theorem paddingConsistent_iff {parsed : Torrent.ParsedTorrent}
    {files : List Model.Matching.TorrentFile} (hplaced : Placed parsed.files parsed.pieceFiles)
    (hfiles : manifestFiles (serviceCodec codec decodes decoded) config 0 (accepted parsed).files =
      .ok files) :
    PaddingConsistent (manifestOf (accepted parsed) files) ↔ ∀ file ∈ parsed.files,
      padName ∉ file.path := by
  have hmarks := manifestFiles_padding hfiles
  rw [show (accepted parsed).files = parsed.files.map fun file => ⟨file.path, file.length⟩ from rfl,
    List.zipIdx_map, List.map_map] at hmarks
  constructor
  · intro h file hfile hpad
    obtain ⟨index, hindex⟩ := List.mem_iff_getElem?.mp hfile
    have hzip : (file, index) ∈ parsed.files.zipIdx := List.mem_zipIdx_iff_getElem?.mpr hindex
    have hnumbered : (index, file.length) ∈ parsed.pieceFiles.filterMap PieceFile.numbered :=
      hplaced.numbered ▸ List.mem_map.mpr ⟨_, hzip, rfl⟩
    obtain ⟨entry, hentry, hentryNumbered⟩ := List.mem_filterMap.mp hnumbered
    obtain ⟨ordinal, hordinal, heq⟩ := Option.map_eq_some_iff.mp hentryNumbered
    obtain ⟨rfl, -⟩ := Prod.mk.inj heq
    have hmark : (ordinal, decide (padName ∈ file.path)) ∈ files.map fun file =>
        (file.ordinal, file.padding) :=
      hmarks ▸ List.mem_map.mpr ⟨_, hzip, rfl⟩
    obtain ⟨marked, hmarked, heq⟩ := List.mem_map.mp hmark
    obtain ⟨hmarkedOrdinal, hpadding⟩ := Prod.mk.inj heq
    rw [h _ (List.mem_map_of_mem hentry) ordinal hordinal marked hmarked hmarkedOrdinal] at hpadding
    simp [hpad] at hpadding
  · intro h entry _ ordinal _ file hfile _
    have hmark : (file.ordinal, file.padding) ∈ files.map fun file =>
        (file.ordinal, file.padding) :=
      List.mem_map_of_mem hfile
    rw [hmarks] at hmark
    obtain ⟨⟨source, index⟩, hsource, heq⟩ := List.mem_map.mp hmark
    rw [← (Prod.mk.inj heq).2]
    exact decide_eq_false (h source (List.fst_mem_of_mem_zipIdx hsource))

/-! ### The manifests of the ingress -/

theorem parse_eq_ok {input : Bytes} {parsed : Torrent.ParsedTorrent}
    (h : (Torrent.parse decodes decoded input).toOption = some parsed) :
    ∃ metainfo, decoded input = some metainfo ∧ parseMetainfo metainfo = .ok parsed := by
  unfold Torrent.parse at h
  split_ifs at h
  · cases h
  · cases h
  · split at h
    · cases h
    · rename_i metainfo hmetainfo
      refine ⟨metainfo, hmetainfo, ?_⟩
      cases hparsed : parseMetainfo metainfo with
      | error error => rw [hparsed] at h; cases h
      | ok parsed' => rw [hparsed] at h; rw [Option.some.inj h]

/-- The part of a prepared submission that comes from the torrent. -/
theorem prepare_eq_ok {submission : CandidateSubmission} {p : Prepared}
    (h : prepare (serviceCodec codec decodes decoded) config submission = .ok p) :
    ∃ metainfo parsed files, decoded submission.bytes = some metainfo
      ∧ parseMetainfo metainfo = .ok parsed
      ∧ manifestFiles (serviceCodec codec decodes decoded) config 0 (accepted parsed).files =
        .ok files
      ∧ p.manifest = manifestOf (accepted parsed) files := by
  unfold prepare at h
  obtain ⟨-, h⟩ := check_eq_ok.mp h
  split at h
  · rename_i accepted' hparse
    obtain ⟨-, h⟩ := check_eq_ok.mp h
    obtain ⟨files, hfiles, h⟩ := bind_eq_ok.mp h
    obtain ⟨parsed, hparsed, rfl⟩ := Option.map_eq_some_iff.mp hparse
    obtain ⟨metainfo, hmetainfo, hparsed⟩ := parse_eq_ok hparsed
    refine ⟨metainfo, parsed, files, hmetainfo, hparsed, hfiles, ?_⟩
    split at h
    · split at h
      · obtain ⟨-, h⟩ := check_eq_ok.mp h
        rw [← Except.ok.inj h]
      · cases h
    · cases h
  · cases h

theorem commitCandidate_id {db db' : Db} {p : Prepared} {submission : CandidateSubmission}
    {result : AcceptedCandidate} (h : commitCandidate codec db p submission = .ok (db', result)) :
      result.candidateId = p.candidateId := by
  unfold commitCandidate at h
  obtain ⟨⟨⟩, -, h⟩ := bind_eq_ok.mp h
  obtain ⟨db₁, -, h⟩ := bind_eq_ok.mp h
  obtain ⟨⟨⟩, -, h⟩ := bind_eq_ok.mp h
  obtain ⟨⟨db₂, inserted⟩, -, h⟩ := bind_eq_ok.mp h
  obtain ⟨db₃, -, h⟩ := bind_eq_ok.mp h
  obtain ⟨⟨⟩, -, h⟩ := bind_eq_ok.mp h
  obtain ⟨db₄, -, h⟩ := bind_eq_ok.mp h
  rw [← (Prod.mk.inj (Except.ok.inj h)).2]

/-- **Padding is classified alike exactly for the torrents that keep it apart.** -/
theorem padding_consistent_iff (codec : Codec) (decodes : Bytes → Bool)
    (decoded : Bytes → Option MetaInfo) (config : IngressConfig) (db db' : Db)
    (submission : CandidateSubmission) (result : AcceptedCandidate)
    (h : acceptCandidate (serviceCodec codec decodes decoded) config db submission =
    .ok (db', result)) :
    ∃ metainfo p, decoded submission.bytes = some metainfo
      ∧ prepare (serviceCodec codec decodes decoded) config submission = .ok p
      ∧ (∃ row, lookup CandidateRow.id db'.candidates result.candidateId = some row
        ∧ row.manifestDigest = p.manifestDigest)
      ∧ (PaddingConsistent p.manifest ↔ PadApart metainfo.info) := by
  obtain ⟨p, hp, hcommit⟩ := bind_eq_ok.mp h
  obtain ⟨metainfo, parsed, files, hdecoded, hparsed, hfiles, hmanifest⟩ := prepare_eq_ok hp
  obtain ⟨⟨⟨row, hrow, -, hdigest⟩, -⟩, -⟩ := commitCandidate_eq_ok hcommit
  have hid : result.candidateId = p.candidateId := commitCandidate_id hcommit
  refine ⟨metainfo, p, hdecoded, hp, ⟨row, hid ▸ hrow, hdigest⟩, ?_⟩
  rw [hmanifest, paddingConsistent_iff (parseMetainfo_eq_ok hparsed).1.placed hfiles]
  exact parsed_apart_iff hparsed

end

/-- A torrent of one file, in a directory `.pad` that is not right below the root. -/
def nestedMetainfo : MetaInfo where
  info :=
    { name := utf8 "root"
      pieceLength := 16384
      v1 := some ⟨.multi [⟨[utf8 "sub", padName, utf8 "x"], 5⟩], List.replicate 20 97⟩
      v2 := none
      pieceLength_pos := pieceLength_pos_16384
      has_view := .inl rfl }
  infoHash := .v1 1
  infoBytes := []

/-- A torrent with a directory of padding below another one. -/
def nestedBytes : Bytes :=
  utf8
    "d4:infod5:filesld6:lengthi5e4:pathl3:sub4:.pad1:xeee4:name4:root12:piece lengthi16384e6:pieces20:aaaaaaaaaaaaaaaaaaaaee"

/-- The submission of that torrent. -/
def nestedSubmission : CandidateSubmission where
  bytes := nestedBytes
  announcementName := none
  indexer := none
  indexerId := none
  trigger := "manual"
  releaseHint := none
  category := none
  tags := []
  requestId := "request"
  dryRun := false
  receivedAt := 5

/-- A codec that parses that torrent only. -/
def nestedCodec : Codec :=
  serviceCodec asciiCodec (fun _ => true) fun input => if input = nestedBytes
    then some nestedMetainfo else none

/-- The default limits. -/
def nestedConfig : IngressConfig := ⟨8388608, 100000, 4096, fun _ => some "null"⟩

set_option maxRecDepth 4000 in
/-- The torrent is accepted; its file is marked as padding, and the layout numbers it. -/
theorem padding_nested : ∃ db' result p,
    acceptCandidate nestedCodec nestedConfig Db.empty nestedSubmission = .ok (db', result)
      ∧ prepare nestedCodec nestedConfig nestedSubmission = .ok p
      ∧ ¬PaddingConsistent p.manifest := by
  refine ⟨_, _, _, rfl, rfl, fun h => ?_⟩
  have hpadding := h ⟨some 0, 0, 5⟩ (by decide +kernel) 0 rfl ⟨0, "root/sub/.pad/x".toList, 5, true⟩
    (by decide +kernel) rfl
  cases hpadding

set_option maxRecDepth 4000 in
theorem padding_consistent_nested : ∃ p, prepare nestedCodec nestedConfig nestedSubmission = .ok p
    ∧ (PaddingConsistent p.manifest ↔ PadApart nestedMetainfo.info) := by
  obtain ⟨metainfo, p, hmetainfo, hp, -, hiff⟩ := padding_consistent_iff asciiCodec (fun _ => true)
    (fun input => if input = nestedBytes then some nestedMetainfo
      else none) nestedConfig Db.empty _ nestedSubmission _
    rfl
  obtain rfl : nestedMetainfo = metainfo := Option.some.inj ((if_pos rfl).symm.trans hmetainfo)
  exact ⟨p, hp, hiff⟩

end Sporos.Service.Padding
