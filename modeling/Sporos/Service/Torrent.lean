import Mathlib.Algebra.Order.Floor.Div
import Sporos.Lib.Layout
import Sporos.Lib.Loop
import Sporos.Service.Ingress

/-! # The torrent parser

`parse_metainfo` of `torrent.rs`: the files of a torrent and the places of their bytes in the
sequence of its pieces. The v1 files follow one another, with files that are only padding; each v2
file begins with a piece; and a hybrid torrent takes its files from the v2 tree and the places from
the v1 list, which must agree.

What the metainfo crate decodes is the input, and what it guarantees are fields of it. -/

namespace Sporos.Service.Torrent

open Sporos.Model.Matching (TorrentPieceFile)
open Sporos.Service.Tables
open Sporos.Lib.Layout
open Sporos.Lib.Loop

/-! ### Metainfo -/

/-- A file of the first version. -/
structure FileV1 where
  path : List Bytes
  length : ℕ

/-- The files of the first version. -/
inductive FileListV1 where
  | single (length : ℕ)
  | multi (files : List FileV1)

/-- The tree of the files of the second version. -/
inductive FileTreeNode where
  | file (length : ℕ) (piecesRoot : Option (BitVec 256))
  | dir (children : List (Bytes × FileTreeNode))

/-- The info of the first version. -/
structure InfoV1 where
  files : FileListV1
  pieces : Bytes

/-- The info of the second version. -/
structure InfoV2 where
  fileTree : FileTreeNode

/-- The info dictionary. -/
structure Info where
  name : Bytes
  pieceLength : ℕ
  v1 : Option InfoV1
  v2 : Option InfoV2
  pieceLength_pos : 0 < pieceLength
  has_view : v1.isSome ∨ v2.isSome

/-- The hashes of the info dictionary. -/
inductive InfoHash where
  | v1 (hash : BitVec 160)
  | v2 (hash : BitVec 256)
  | hybrid (v1 : BitVec 160) (v2 : BitVec 256)
  deriving DecidableEq, Repr

/-- What the library makes of a torrent file. -/
structure MetaInfo where
  info : Info
  infoHash : InfoHash
  infoBytes : Bytes

/-! ### Parsed torrents -/

/-- Why a torrent file is refused. -/
inductive TorrentParseError where
  | limitExceeded (limit : String)
  | bencode
  | metainfo
  | unsafePath
  | conflictingPaths
  | inconsistentPieces
  | inconsistentHybrid
  deriving DecidableEq, Repr

/-- The versions that a torrent file has. -/
inductive TorrentVersion where
  | v1
  | v2
  | hybrid
  deriving DecidableEq, Repr

/-- A file of the manifest. -/
structure TorrentFile where
  path : List Bytes
  length : ℕ
  piecesRoot : Option (BitVec 256)
  deriving DecidableEq, Repr

/-- Where a file lies among the pieces. -/
structure PieceFile where
  fileOrdinal : Option ℕ
  offset : ℕ
  length : ℕ
  deriving DecidableEq, Repr

/-- The files of one version. -/
structure FileView where
  files : List TorrentFile
  pieceFiles : List PieceFile
  deriving DecidableEq, Repr

/-- What the parser answers. -/
structure ParsedTorrent where
  version : TorrentVersion
  name : Bytes
  infoBytes : Bytes
  pieceLength : ℕ
  v1Hash : Option (BitVec 160)
  v2Hash : Option (BitVec 256)
  v1Pieces : Option Bytes
  files : List TorrentFile
  pieceFiles : List PieceFile
  deriving DecidableEq, Repr

/-! ### Paths -/

/-- `MAX_TORRENT_BYTES`. -/
def maxTorrentBytes : ℕ := 8 * 1024 * 1024
/-- `MAX_FILES`. -/
def maxFiles : ℕ := 100000
/-- `MAX_PATH_COMPONENTS`. -/
def maxPathComponents : ℕ := 64
/-- `MAX_COMPONENT_BYTES`. -/
def maxComponentBytes : ℕ := 255
/-- `MAX_PATH_BYTES`. -/
def maxPathBytes : ℕ := 4096
/-- `MAX_MANIFEST_PATH_BYTES`. -/
def maxManifestPathBytes : ℕ := 64 * 1024 * 1024

/-- `validate_component`. -/
def validateComponent (component : Bytes) : Except TorrentParseError Unit :=
  if component = [] ∨ component.length > maxComponentBytes ∨ component = [46] ∨ component = [46, 46]
      ∨ 47 ∈ component ∨ 0 ∈ component then
    .error .unsafePath
  else .ok ()

/-- The bytes of the paths of the files, with those before. The additions are checked, but the
limits are far below the largest number. -/
def validatePaths : ℕ → List TorrentFile → Except TorrentParseError Unit
  | _, [] => .ok ()
  | manifestPathBytes, file :: files => do
    if file.path = [] ∨ file.path.length > maxPathComponents
      then .error (.limitExceeded "path components")
    file.path.forM validateComponent
    let pathBytes := file.path.length - 1 + (file.path.map List.length).sum
    if pathBytes > maxPathBytes then .error (.limitExceeded "path bytes")
    if manifestPathBytes + pathBytes > maxManifestPathBytes
      then .error (.limitExceeded "manifest path bytes")
    validatePaths (manifestPathBytes + pathBytes) files

/-- No path begins the next one. -/
def conflictFree : List (List Bytes) → Bool
  | path :: next :: paths => !path.isPrefixOf next && conflictFree (next :: paths)
  | _ => true

/-- `validate_files`. -/
def validateFiles (files : List TorrentFile) : Except TorrentParseError Unit := do
  if files = [] ∨ files.length > maxFiles then .error (.limitExceeded "file count")
  validatePaths 0 files
  if conflictFree ((files.map TorrentFile.path).insertionSort (· ≤ ·)) then .ok ()
  else .error .conflictingPaths

/-! ### Layouts -/

/-- `checked_add` of two offsets. -/
def checkedAdd (a b : ℕ) : Except TorrentParseError ℕ :=
  if a + b ≤ u64Max then .ok (a + b) else .error .inconsistentPieces

/-- `u32::try_from` of an ordinal. -/
def checkedOrdinal (ordinal : ℕ) : Except TorrentParseError ℕ :=
  if ordinal < 2 ^ 32 then .ok ordinal else .error (.limitExceeded "file count")

/-- A file of the v1 list, and whether it is padding. -/
structure RawFile where
  path : List Bytes
  length : ℕ
  padding : Bool

/-- The name of the directory of the padding. -/
def padName : Bytes := [46, 112, 97, 100]

/-- The files of the first version, with whether they are padding. -/
def rawFiles (name : Bytes) : FileListV1 → List RawFile
  | .single length => [⟨[name], length, false⟩]
  | .multi files => files.map fun file => ⟨name :: file.path, file.length,
      file.path.head? = some padName⟩

/-- The ordinal of a file of the v1 list, after a number of files. -/
def RawFile.ordinal (count : ℕ) (raw : RawFile) : Except TorrentParseError (Option ℕ) :=
  if raw.padding then .ok none else (checkedOrdinal count).map some

/-- The loop over the v1 list, from a number of files and an offset on. -/
def v1Loop : ℕ → ℕ → List RawFile → Except TorrentParseError FileView
  | _, _, [] => .ok ⟨[], []⟩
  | count, offset, raw :: raws => do
    let ordinal ← raw.ordinal count
    let next ← checkedAdd offset raw.length
    let view ← v1Loop (if raw.padding then count else count + 1) next raws
    return ⟨if raw.padding then view.files else ⟨raw.path, raw.length, none⟩ :: view.files,
      ⟨ordinal, offset, raw.length⟩ :: view.pieceFiles⟩

/-- `v1_files`. -/
def v1Files (name : Bytes) (layout : FileListV1) : Except TorrentParseError FileView := do
  let raws := rawFiles name layout
  validateFiles (raws.map fun raw => ⟨raw.path, raw.length, none⟩)
  v1Loop 0 0 raws

/-- The offset of the next piece. -/
def alignPiece (offset pieceLength : ℕ) : Except TorrentParseError ℕ :=
  if offset % pieceLength = 0 then .ok offset
    else checkedAdd offset (pieceLength - offset % pieceLength)

mutual

/-- `flatten_v2`: the files of a tree, below a path. -/
def flattenV2 (path : List Bytes) : FileTreeNode → List TorrentFile
  | .file length piecesRoot => [⟨path, length, piecesRoot⟩]
  | .dir children => flattenChildren path children

/-- The files below the children of a directory. -/
def flattenChildren (path : List Bytes) : List (Bytes × FileTreeNode) → List TorrentFile
  | [] => []
  | (name, child) :: children => flattenV2 (path ++ [name]) child ++ flattenChildren path children

end

/-- The loop over the v2 files, from an ordinal and an end on. -/
def v2Loop (pieceLength : ℕ) : ℕ → ℕ → List TorrentFile → Except TorrentParseError (List PieceFile)
  | _, _, [] => .ok []
  | ordinal, stop, file :: files => do
    let offset ← alignPiece stop pieceLength
    let fileOrdinal ← checkedOrdinal ordinal
    let next ← checkedAdd offset file.length
    let pieceFiles ← v2Loop pieceLength (ordinal + 1) next files
    return ⟨some fileOrdinal, offset, file.length⟩ :: pieceFiles

/-- The files of a tree, below the name of the torrent unless there is only one at its root. -/
def v2Paths (name : Bytes) (tree : FileTreeNode) : List TorrentFile :=
  match flattenV2 [] tree with
  | [⟨[component], length, piecesRoot⟩] => [⟨[component], length, piecesRoot⟩]
  | files => files.map fun file => { file with path := name :: file.path }

/-- `v2_files`. -/
def v2Files (name : Bytes) (pieceLength : ℕ) (tree : FileTreeNode) :
    Except TorrentParseError FileView := do
  let files := v2Paths name tree
  validateFiles files
  let pieceFiles ← v2Loop pieceLength 0 0 files
  return ⟨files, pieceFiles⟩

/-- `hybrid_layout_matches`. -/
def hybridLayoutMatches (v1 v2 : FileView) : Bool :=
  v1.files.length = v2.files.length
    ∧ (v1.files.zip v2.files).all (fun (file, file') => file.path = file'.path
      ∧ file.length = file'.length)
    ∧ v1.pieceFiles.filter (fun file => file.fileOrdinal.isSome) = v2.pieceFiles

/-- `saturating_add` of the last place of a view and its length. -/
def FileView.totalLength (view : FileView) : ℕ :=
  (view.pieceFiles.getLast?.map fun file => min (file.offset + file.length) u64Max).getD 0

/-- The number of piece hashes is that of the pieces. -/
def checkPieces (pieceLength : ℕ) (pieces : Bytes) (view : FileView) :
    Except TorrentParseError Unit :=
  if (view.totalLength + pieceLength - 1) / pieceLength ≠ pieces.length / 20
    then .error .inconsistentPieces else .ok ()

/-- The v1 view of a torrent, if it has one. -/
def v1View (info : Info) : Except TorrentParseError (Option FileView) :=
  match info.v1 with
  | none => .ok none
  | some v1 => do
    let view ← v1Files info.name v1.files
    checkPieces info.pieceLength v1.pieces view
    return some view

/-- The files of the second version, if there is one. -/
def v2View (info : Info) : Except TorrentParseError (Option FileView) :=
  match info.v2 with
  | none => .ok none
  | some v2 => (v2Files info.name info.pieceLength v2.fileTree).map some

/-- The version of a torrent, with the view that it takes the files and the places from. -/
def combine : Option FileView → Option FileView →
    Except TorrentParseError (TorrentVersion × FileView)
  | some v1, some v2 =>
    if hybridLayoutMatches v1 v2 then .ok (.hybrid, ⟨v2.files, v1.pieceFiles⟩)
      else .error .inconsistentHybrid
  | some v1, none => .ok (.v1, v1)
  | none, some v2 => .ok (.v2, v2)
  -- The crate rejects a torrent without a view.
  | none, none => .error .metainfo

/-- The hash of the first version. -/
def InfoHash.v1? : InfoHash → Option (BitVec 160)
  | .v1 hash | .hybrid hash _ => some hash
  | .v2 _ => none

/-- The hash of the second version. -/
def InfoHash.v2? : InfoHash → Option (BitVec 256)
  | .v2 hash | .hybrid _ hash => some hash
  | .v1 _ => none

/-- `parse_metainfo`. -/
def parseMetainfo (metainfo : MetaInfo) : Except TorrentParseError ParsedTorrent := do
  validateComponent metainfo.info.name
  let v1 ← v1View metainfo.info
  let v2 ← v2View metainfo.info
  let (version, view) ← combine v1 v2
  return {
    version
    name := metainfo.info.name
    infoBytes := metainfo.infoBytes
    pieceLength := metainfo.info.pieceLength
    v1Hash := metainfo.infoHash.v1?
    v2Hash := metainfo.infoHash.v2?
    v1Pieces := metainfo.info.v1.map InfoV1.pieces
    files := view.files
    pieceFiles := view.pieceFiles }

/-- `TorrentParser::parse`, where the two functions are those of the bencode and the metainfo
crates. -/
def parse (decodes : Bytes → Bool) (metainfo : Bytes → Option MetaInfo) (input : Bytes) :
    Except TorrentParseError ParsedTorrent :=
  if input.length > maxTorrentBytes then .error (.limitExceeded "torrent bytes")
  else if !decodes input then .error .bencode
  else
    match metainfo input with
    | none => .error .metainfo
    | some metainfo => parseMetainfo metainfo

/-! ### What the loops do -/

/-- The place of an entry. -/
def PieceFile.range (file : PieceFile) : ℕ × ℕ := (file.offset, file.length)

/-- The ordinal and the length of an entry, unless it is padding. -/
def PieceFile.numbered (file : PieceFile) : Option (ℕ × ℕ) := file.fileOrdinal.map (·, file.length)

/-- The ordinals and the lengths of the files, from a first ordinal on. -/
def numberedFiles (files : List TorrentFile) (first : ℕ) : List (ℕ × ℕ) :=
  (files.zipIdx first).map fun entry => (entry.2, entry.1.length)

theorem checkedAdd_eq_ok {a b c : ℕ} (h : checkedAdd a b = .ok c) : c = a + b ∧ a + b ≤ u64Max := by
  unfold checkedAdd at h
  split_ifs at h with hle
  exact ⟨(Except.ok.inj h).symm, hle⟩

theorem checkedOrdinal_eq_ok {ordinal ordinal' : ℕ} (h : checkedOrdinal ordinal = .ok ordinal') :
    ordinal' = ordinal := by
  unfold checkedOrdinal at h
  split_ifs at h
  exact (Except.ok.inj h).symm

theorem alignPiece_eq_ok {offset pieceLength start : ℕ} (hpositive : 0 < pieceLength)
    (h : alignPiece offset pieceLength = .ok start) : start = alignUp pieceLength offset := by
  rw [alignUp_eq hpositive]
  unfold alignPiece at h
  split_ifs at h ⊢
  · exact (Except.ok.inj h).symm
  · exact (checkedAdd_eq_ok h).1

/-- **The v1 loop** places the entries one after another and numbers those that are not padding. -/
theorem v1Loop_eq_ok (raws : List RawFile) : ∀ {count offset : ℕ} {view : FileView},
    v1Loop count offset raws = .ok view → offset ≤ u64Max →
    view.pieceFiles.map PieceFile.range = place id offset (raws.map RawFile.length)
      ∧ offset + (raws.map RawFile.length).sum ≤ u64Max
      ∧ view.pieceFiles.filterMap PieceFile.numbered = numberedFiles view.files count
      ∧ (view.files.map TorrentFile.length).sum ≤ (raws.map RawFile.length).sum := by
  induction raws with
  | nil =>
    intro count offset view h hoffset
    obtain rfl := Except.ok.inj h
    exact ⟨rfl, hoffset, rfl, le_rfl⟩
  | cons raw raws ih =>
    intro count offset view h _
    unfold v1Loop at h
    obtain ⟨ordinal, hordinal, h⟩ := bind_eq_ok.mp h
    obtain ⟨next, hnext, h⟩ := bind_eq_ok.mp h
    obtain ⟨rest, hrest, h⟩ := bind_eq_ok.mp h
    obtain rfl := Except.ok.inj h
    obtain ⟨rfl, hle⟩ := checkedAdd_eq_ok hnext
    obtain ⟨hranges, hsum, hnumbered, hfiles⟩ := ih hrest hle
    refine ⟨?_, ?_, ?_, ?_⟩
    · exact congrArg (List.cons (offset, raw.length)) hranges
    · rw [List.map_cons, List.sum_cons, ← Nat.add_assoc]
      exact hsum
    · cases hpadding : raw.padding with
      | true =>
        simp only [RawFile.ordinal, hpadding, if_true] at hordinal hnumbered ⊢
        obtain rfl := Except.ok.inj hordinal
        exact hnumbered
      | false =>
        simp only [RawFile.ordinal, hpadding, Bool.false_eq_true, if_false] at hordinal hnumbered ⊢
        obtain ⟨ordinal', hordinal', rfl⟩ := map_eq_ok hordinal
        obtain rfl := checkedOrdinal_eq_ok hordinal'
        exact congrArg (List.cons (ordinal', raw.length)) hnumbered
    · cases hpadding : raw.padding with
      | true =>
        simp only [if_true, List.map_cons, List.sum_cons]
        omega
      | false =>
        simp only [Bool.false_eq_true, if_false, List.map_cons, List.sum_cons]
        omega

/-- **The v2 loop** places every file at the begin of a piece. -/
theorem v2Loop_eq_ok {pieceLength : ℕ} (hpositive : 0 < pieceLength) (files : List TorrentFile) :
    ∀ {ordinal stop : ℕ} {pieceFiles : List PieceFile},
    v2Loop pieceLength ordinal stop files = .ok pieceFiles → stop ≤ u64Max →
    pieceFiles.map PieceFile.range = place (alignUp pieceLength) stop (files.map TorrentFile.length)
      ∧ finish (alignUp pieceLength) stop (files.map TorrentFile.length) ≤ u64Max
      ∧ pieceFiles.filterMap PieceFile.numbered = numberedFiles files ordinal
      ∧ ∀ file ∈ pieceFiles, file.fileOrdinal.isSome = true := by
  induction files with
  | nil =>
    intro ordinal stop pieceFiles h hstop
    obtain rfl := Except.ok.inj h
    exact ⟨rfl, hstop, rfl, by simp⟩
  | cons file files ih =>
    intro ordinal stop pieceFiles h _
    unfold v2Loop at h
    obtain ⟨offset, hoffset, h⟩ := bind_eq_ok.mp h
    obtain ⟨fileOrdinal, hordinal, h⟩ := bind_eq_ok.mp h
    obtain ⟨next, hnext, h⟩ := bind_eq_ok.mp h
    obtain ⟨rest, hrest, h⟩ := bind_eq_ok.mp h
    obtain rfl := Except.ok.inj h
    obtain rfl := alignPiece_eq_ok hpositive hoffset
    obtain rfl := checkedOrdinal_eq_ok hordinal
    obtain ⟨rfl, hle⟩ := checkedAdd_eq_ok hnext
    obtain ⟨hranges, hfinish, hnumbered, hordinals⟩ := ih hrest hle
    refine ⟨?_, hfinish, ?_, List.forall_mem_cons.mpr ⟨rfl, hordinals⟩⟩
    · exact congrArg (List.cons (alignUp pieceLength stop, file.length)) hranges
    · exact congrArg (List.cons (fileOrdinal, file.length)) hnumbered

/-! ### Views -/

/-- The places are in order and of 64 bits, and the entries that are not padding are the files. -/
structure Placed (files : List TorrentFile) (pieceFiles : List PieceFile) : Prop where
  ordered : pieceFiles.Pairwise fun file later => file.offset + file.length ≤ later.offset
  bounded : ∀ file ∈ pieceFiles, file.offset + file.length ≤ u64Max
  numbered : pieceFiles.filterMap PieceFile.numbered = numberedFiles files 0
  sum_le : (files.map TorrentFile.length).sum ≤ u64Max

theorem placed_of_ranges {start : ℕ → ℕ} (hstart : ∀ offset, offset ≤ start offset)
    {files : List TorrentFile} {pieceFiles : List PieceFile} {sizes : List ℕ}
    (hranges : pieceFiles.map PieceFile.range = place start 0 sizes)
    (hfinish : finish start 0 sizes ≤ u64Max)
    (hnumbered : pieceFiles.filterMap PieceFile.numbered = numberedFiles files 0)
    (hsum : (files.map TorrentFile.length).sum ≤ sizes.sum) : Placed files pieceFiles := by
  have hordered := place_ordered hstart sizes 0
  rw [← hranges, List.pairwise_map] at hordered
  refine ⟨hordered, fun file hfile => ?_, hnumbered, ?_⟩
  · have hmem : file.range ∈ place start 0 sizes := hranges ▸ List.mem_map_of_mem hfile
    exact (place_bounds hstart sizes 0 file.range hmem).2.trans hfinish
  · have hfiles := add_sum_le_finish hstart sizes 0
    omega

theorem v1Files_eq_ok {name : Bytes} {layout : FileListV1} {view : FileView}
    (h : v1Files name layout = .ok view) :
    view.pieceFiles.map PieceFile.range = place id 0 ((rawFiles name layout).map RawFile.length)
      ∧ rawFiles name layout ≠ []
      ∧ ((rawFiles name layout).map RawFile.length).sum ≤ u64Max
      ∧ Placed view.files view.pieceFiles := by
  unfold v1Files at h
  obtain ⟨⟨⟩, hvalid, h⟩ := bind_eq_ok.mp h
  obtain ⟨hranges, hsum, hnumbered, hfiles⟩ := v1Loop_eq_ok _ h (Nat.zero_le _)
  have hfinish : finish id 0 ((rawFiles name layout).map RawFile.length) ≤ u64Max := by
    rw [finish_id]
    exact hsum
  rw [Nat.zero_add] at hsum
  refine ⟨hranges, fun hnil => ?_, hsum,
    placed_of_ranges (fun _ => le_rfl) hranges hfinish hnumbered hfiles⟩
  rw [hnil] at hvalid
  simp [validateFiles, bind, Except.bind] at hvalid

theorem v2Files_eq_ok {name : Bytes} {pieceLength : ℕ} (hpositive : 0 < pieceLength)
    {tree : FileTreeNode} {view : FileView} (h : v2Files name pieceLength tree = .ok view) :
    view.pieceFiles.map PieceFile.range =
      place (alignUp pieceLength) 0 (view.files.map TorrentFile.length)
      ∧ view.files ≠ []
      ∧ Placed view.files view.pieceFiles
      ∧ ∀ file ∈ view.pieceFiles, file.fileOrdinal.isSome = true := by
  unfold v2Files at h
  obtain ⟨⟨⟩, hvalid, h⟩ := bind_eq_ok.mp h
  obtain ⟨pieceFiles, hloop, h⟩ := bind_eq_ok.mp h
  obtain rfl := Except.ok.inj h
  obtain ⟨hranges, hfinish, hnumbered, hordinals⟩ := v2Loop_eq_ok hpositive _ hloop (Nat.zero_le _)
  refine ⟨hranges, ?_, placed_of_ranges (le_alignUp hpositive) hranges hfinish hnumbered le_rfl,
    hordinals⟩
  intro hnil
  simp only at hnil
  rw [hnil] at hvalid
  simp [validateFiles, bind, Except.bind] at hvalid

theorem v1View_eq_ok {info : Info} {view? : Option FileView} (h : v1View info = .ok view?) :
    (info.v1 = none ∧ view? = none)
      ∨ ∃ v1 view, info.v1 = some v1 ∧ view? = some view ∧ v1Files info.name v1.files = .ok view
        ∧ checkPieces info.pieceLength v1.pieces view = .ok () := by
  unfold v1View at h
  split at h
  · rename_i hnone
    exact .inl ⟨hnone, (Except.ok.inj h).symm⟩
  · rename_i v1 hv1
    obtain ⟨view, hview, h⟩ := bind_eq_ok.mp h
    obtain ⟨⟨⟩, hpieces, h⟩ := bind_eq_ok.mp h
    exact .inr ⟨v1, view, hv1, (Except.ok.inj h).symm, hview, hpieces⟩

theorem v2View_eq_ok {info : Info} {view? : Option FileView} (h : v2View info = .ok view?) :
    (info.v2 = none ∧ view? = none)
      ∨ ∃ v2 view, info.v2 = some v2 ∧ view? = some view
        ∧ v2Files info.name info.pieceLength v2.fileTree = .ok view := by
  unfold v2View at h
  split at h
  · rename_i hnone
    exact .inl ⟨hnone, (Except.ok.inj h).symm⟩
  · rename_i v2 hv2
    obtain ⟨view, hview, rfl⟩ := map_eq_ok h
    exact .inr ⟨v2, view, hv2, rfl, hview⟩

/-- The views that a parsed torrent is made of. -/
inductive Origin (metainfo : MetaInfo) (parsed : ParsedTorrent) : Prop where
  | v1 (v1 : InfoV1) (hinfo : metainfo.info.v1 = some v1) (hnone : metainfo.info.v2 = none)
      (hversion : parsed.version = .v1)
      (hview : v1Files metainfo.info.name v1.files = .ok ⟨parsed.files, parsed.pieceFiles⟩)
      (hpieces : checkPieces metainfo.info.pieceLength v1.pieces ⟨parsed.files,
        parsed.pieceFiles⟩ = .ok ())
  | v2 (v2 : InfoV2) (hinfo : metainfo.info.v2 = some v2) (hnone : metainfo.info.v1 = none)
      (hversion : parsed.version = .v2)
      (hview : v2Files metainfo.info.name metainfo.info.pieceLength v2.fileTree
        = .ok ⟨parsed.files, parsed.pieceFiles⟩)
  | hybrid (v1 : InfoV1) (v2 : InfoV2) (files : List TorrentFile) (pieceFiles : List PieceFile)
      (hversion : parsed.version = .hybrid)
      (hview₁ : v1Files metainfo.info.name v1.files = .ok ⟨files, parsed.pieceFiles⟩)
      (hview₂ : v2Files metainfo.info.name metainfo.info.pieceLength v2.fileTree =
        .ok ⟨parsed.files, pieceFiles⟩)
      (hmatches : hybridLayoutMatches ⟨files, parsed.pieceFiles⟩ ⟨parsed.files, pieceFiles⟩ = true)

theorem parseMetainfo_eq_ok {metainfo : MetaInfo} {parsed : ParsedTorrent}
    (h : parseMetainfo metainfo = .ok parsed) :
    Origin metainfo parsed ∧ parsed.pieceLength = metainfo.info.pieceLength
      ∧ parsed.v1Hash = metainfo.infoHash.v1? ∧ parsed.v2Hash = metainfo.infoHash.v2?
      ∧ parsed.v1Pieces = metainfo.info.v1.map InfoV1.pieces := by
  unfold parseMetainfo at h
  obtain ⟨⟨⟩, -, h⟩ := bind_eq_ok.mp h
  obtain ⟨view₁, hview₁, h⟩ := bind_eq_ok.mp h
  obtain ⟨view₂, hview₂, h⟩ := bind_eq_ok.mp h
  obtain ⟨⟨version, view⟩, hcombine, h⟩ := bind_eq_ok.mp h
  obtain rfl := Except.ok.inj h
  refine ⟨?_, rfl, rfl, rfl, rfl⟩
  rcases v1View_eq_ok hview₁ with ⟨hnone₁, rfl⟩ | ⟨v1, v1View, hv1, rfl, hfiles₁, hpieces⟩ <;>
    rcases v2View_eq_ok hview₂ with ⟨hnone₂, rfl⟩ | ⟨v2, v2View, hv2, rfl, hfiles₂⟩
  · cases hcombine
  · obtain ⟨rfl, rfl⟩ := Prod.mk.inj (Except.ok.inj hcombine)
    exact .v2 v2 hv2 hnone₁ rfl hfiles₂
  · obtain ⟨rfl, rfl⟩ := Prod.mk.inj (Except.ok.inj hcombine)
    exact .v1 v1 hv1 hnone₂ rfl hfiles₁ hpieces
  · simp only [combine] at hcombine
    split_ifs at hcombine with hmatches
    obtain ⟨rfl, rfl⟩ := Prod.mk.inj (Except.ok.inj hcombine)
    exact .hybrid v1 v2 v1View.files v2View.pieceFiles rfl hfiles₁ hfiles₂ hmatches

theorem filterMap_numbered_filter (pieceFiles : List PieceFile) :
    (pieceFiles.filter fun file => file.fileOrdinal.isSome).filterMap PieceFile.numbered
      = pieceFiles.filterMap PieceFile.numbered := by
  rw [List.filterMap_filter]
  refine List.filterMap_congr fun file _ => ?_
  cases hordinal : file.fileOrdinal <;> simp [PieceFile.numbered, hordinal]

theorem hybridLayoutMatches_iff {v1 v2 : FileView} (h : hybridLayoutMatches v1 v2 = true) :
    v1.pieceFiles.filter (fun file => file.fileOrdinal.isSome) = v2.pieceFiles := by
  simp only [hybridLayoutMatches, decide_eq_true_eq] at h
  exact h.2.2

theorem Origin.placed {metainfo : MetaInfo} {parsed : ParsedTorrent} (h : Origin metainfo parsed) :
    Placed parsed.files parsed.pieceFiles := by
  cases h with
  | v1 v1 hinfo hnone hversion hview hpieces => exact (v1Files_eq_ok hview).2.2.2
  | v2 v2 hinfo hnone hversion hview =>
    exact (v2Files_eq_ok metainfo.info.pieceLength_pos hview).2.2.1
  | hybrid v1 v2 files pieceFiles hversion hview₁ hview₂ hmatches =>
    -- The places are those of the v1 view, and its numbered entries are those of the v2 view.
    have hplaced₁ := (v1Files_eq_ok hview₁).2.2.2
    have hplaced₂ := (v2Files_eq_ok metainfo.info.pieceLength_pos hview₂).2.2.1
    refine ⟨hplaced₁.ordered, hplaced₁.bounded, ?_, hplaced₂.sum_le⟩
    rw [← filterMap_numbered_filter, hybridLayoutMatches_iff hmatches]
    exact hplaced₂.numbered

theorem Origin.pieceFiles_ne_nil {metainfo : MetaInfo} {parsed : ParsedTorrent}
    (h : Origin metainfo parsed) : parsed.pieceFiles ≠ [] := by
  have hnil : ∀ {start : ℕ → ℕ} {sizes : List ℕ}, sizes ≠ [] →
      parsed.pieceFiles.map PieceFile.range = place start 0 sizes → parsed.pieceFiles ≠ [] := by
    intro start sizes hsizes hranges heq
    cases sizes with
    | nil => exact hsizes rfl
    | cons size sizes =>
      rw [heq] at hranges
      cases hranges
  cases h with
  | v1 v1 hinfo hnone hversion hview hpieces =>
    obtain ⟨hranges, hraws, -⟩ := v1Files_eq_ok hview
    exact hnil (by simpa using hraws) hranges
  | v2 v2 hinfo hnone hversion hview =>
    obtain ⟨hranges, hfiles, -⟩ := v2Files_eq_ok metainfo.info.pieceLength_pos hview
    exact hnil (by simpa using hfiles) hranges
  | hybrid v1 v2 files pieceFiles hversion hview₁ hview₂ hmatches =>
    obtain ⟨hranges, hraws, -⟩ := v1Files_eq_ok hview₁
    exact hnil (by simpa using hraws) hranges

theorem aligned_of_ranges {pieceLength : ℕ} {pieceFiles : List PieceFile} {sizes : List ℕ}
    (h : pieceFiles.map PieceFile.range = place (alignUp pieceLength) 0 sizes) :
    ∀ file ∈ pieceFiles, pieceLength ∣ file.offset := by
  intro file hfile
  have hmem : file.range ∈ place (alignUp pieceLength) 0 sizes := h ▸ List.mem_map_of_mem hfile
  exact place_alignUp_dvd pieceLength sizes 0 file.range hmem

/-- The entries of a v1 list follow one another from the begin on. -/
theorem contiguous_of_ranges {pieceFiles : List PieceFile} {sizes : List ℕ}
    (h : pieceFiles.map PieceFile.range = place id 0 sizes) :
    pieceFiles.map PieceFile.length = sizes ∧ ∀ index file, pieceFiles[index]? = some file →
      file.offset = ((pieceFiles.take index).map PieceFile.length).sum := by
  have hsizes : pieceFiles.map PieceFile.length = sizes := by
    have hlengths := congrArg (List.map Prod.snd) h
    rw [map_snd_place, List.map_map] at hlengths
    exact hlengths
  refine ⟨hsizes, fun index file hfile => ?_⟩
  have hrange : (pieceFiles.map PieceFile.range)[index]? = some file.range := by
    rw [List.getElem?_map, hfile]; rfl
  rw [h, place_id_getElem?, Nat.zero_add] at hrange
  obtain ⟨size, hsize, heq⟩ := Option.map_eq_some_iff.mp hrange
  rw [List.map_take, hsizes]
  exact (congrArg Prod.fst heq).symm

theorem checkPieces_eq_ok {pieceLength : ℕ} {pieces : Bytes} {view : FileView} {sizes : List ℕ}
    (hsizes : sizes ≠ []) (hranges : view.pieceFiles.map PieceFile.range = place id 0 sizes)
    (hsum : sizes.sum ≤ u64Max) (h : checkPieces pieceLength pieces view = .ok ()) :
      pieces.length / 20 = sizes.sum ⌈/⌉ pieceLength := by
  obtain ⟨item, hlast, hend⟩ := getLast?_place id sizes hsizes 0
  rw [← hranges, List.getLast?_map] at hlast
  obtain ⟨file, hfile, rfl⟩ := Option.map_eq_some_iff.mp hlast
  have htotal : view.totalLength = sizes.sum := by
    rw [finish_id, Nat.zero_add] at hend
    have hend' : file.offset + file.length = sizes.sum := hend
    rw [FileView.totalLength, hfile, Option.map_some, Option.getD_some, hend']
    exact min_eq_left hsum
  unfold checkPieces at h
  rw [htotal] at h
  split_ifs at h with heq
  rw [Nat.ceilDiv_eq_add_pred_div]
  exact (not_not.mp heq).symm

/-- **The layout of a torrent.** The entries are in order, and those that are not padding are the
files, with their numbers and lengths. The entries of a v1 torrent have no gaps, and there is one
hash for each piece. In the others a file begins with a piece. All files together are of 64 bits. -/
theorem parsed_layout (metainfo : MetaInfo) (parsed : ParsedTorrent)
    (h : parseMetainfo metainfo = .ok parsed) :
    (parsed.pieceFiles.Pairwise fun file later => file.offset + file.length ≤ later.offset)
      ∧ parsed.pieceFiles.filterMap (fun file => file.fileOrdinal.map (·, file.length))
        = parsed.files.zipIdx.map (fun entry => (entry.2, entry.1.length))
      ∧ (parsed.version = .v1 →
        (∀ index file, parsed.pieceFiles[index]? = some file →
          file.offset = ((parsed.pieceFiles.take index).map PieceFile.length).sum)
        ∧ ∃ pieces, parsed.v1Pieces = some pieces
          ∧ pieces.length / 20 =
            (parsed.pieceFiles.map PieceFile.length).sum ⌈/⌉ parsed.pieceLength)
      ∧ (parsed.version ≠ .v1 → ∀ file ∈ parsed.pieceFiles, file.fileOrdinal.isSome = true →
        parsed.pieceLength ∣ file.offset)
      ∧ (parsed.files.map TorrentFile.length).sum ≤ u64Max := by
  obtain ⟨horigin, hpieceLength, -, -, hpieces⟩ := parseMetainfo_eq_ok h
  have hplaced := horigin.placed
  refine ⟨hplaced.ordered, hplaced.numbered, ?_, ?_, hplaced.sum_le⟩
  · intro hv1
    cases horigin with
    | v1 v1 hinfo hnone hversion hview hcheck =>
      obtain ⟨hranges, hraws, hsum, -⟩ := v1Files_eq_ok hview
      obtain ⟨hsizes, hcontiguous⟩ := contiguous_of_ranges hranges
      refine ⟨hcontiguous, v1.pieces, by rw [hpieces, hinfo]; rfl, ?_⟩
      rw [hsizes, hpieceLength]
      exact checkPieces_eq_ok (by simpa using hraws) hranges hsum hcheck
    | v2 v2 hinfo hnone hversion hview => rw [hversion] at hv1; cases hv1
    | hybrid v1 v2 files pieceFiles hversion => rw [hversion] at hv1; cases hv1
  · intro hv1 file hfile hordinal
    rw [hpieceLength]
    cases horigin with
    | v1 v1 hinfo hnone hversion => exact absurd hversion hv1
    | v2 v2 hinfo hnone hversion hview =>
      exact aligned_of_ranges (v2Files_eq_ok metainfo.info.pieceLength_pos hview).1 file hfile
    | hybrid v1 v2 files pieceFiles hversion hview₁ hview₂ hmatches =>
      refine aligned_of_ranges (v2Files_eq_ok metainfo.info.pieceLength_pos hview₂).1 file ?_
      rw [← hybridLayoutMatches_iff hmatches]
      exact List.mem_filter.mpr ⟨hfile, hordinal⟩

theorem pieceLength_pos_16384 : 0 < 16384 := by decide

/-- A hybrid torrent of two files of 10000 bytes, with padding up to the second piece. -/
def hybridMetainfo : MetaInfo where
  info :=
    { name := [114]
      pieceLength := 16384
      v1 := some ⟨.multi [⟨[[97]], 10000⟩, ⟨[padName, [54]], 6384⟩, ⟨[[98]], 10000⟩],
        List.replicate 40 97⟩
      v2 := some ⟨.dir [([97], .file 10000 (some 1)), ([98], .file 10000 (some 1))]⟩
      pieceLength_pos := pieceLength_pos_16384
      has_view := .inl rfl }
  infoHash := .hybrid 1 2
  infoBytes := []

/-- A torrent of both versions, as it is parsed. -/
def hybridParsed : ParsedTorrent where
  version := .hybrid
  name := [114]
  infoBytes := []
  pieceLength := 16384
  v1Hash := some 1
  v2Hash := some 2
  v1Pieces := some (List.replicate 40 97)
  files := [⟨[[114], [97]], 10000, some 1⟩, ⟨[[114], [98]], 10000, some 1⟩]
  pieceFiles := [⟨some 0, 0, 10000⟩, ⟨none, 10000, 6384⟩, ⟨some 1, 16384, 10000⟩]

theorem parsed_layout_hybrid : parseMetainfo hybridMetainfo = .ok hybridParsed
    ∧ (∀ file ∈ hybridParsed.pieceFiles, file.fileOrdinal.isSome = true →
      hybridParsed.pieceLength ∣ file.offset) := by
  have hparsed : parseMetainfo hybridMetainfo = .ok hybridParsed := by decide +kernel
  exact ⟨hparsed, (parsed_layout hybridMetainfo hybridParsed hparsed).2.2.2.1 (by decide)⟩

end Sporos.Service.Torrent
