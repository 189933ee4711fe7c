import Sporos.Lib.Loop
import Sporos.Service.Inventory

/-! # The main data of qBittorrent

`parse_main_data_with_header` of `inventory.rs`. The document is what `serde_json` reads of it: the
members of the object in order, with their keys, up to an error of the reader; a value is read as
one of the types that the visitors ask for (`Value`). The errors of the reader are a type `ε` of
which only the one for too many bytes is known.

The calls of the two callbacks are kept in order, and their answers may depend on the calls before.
-/

namespace Sporos.Service.MainDataStream

open Sporos.Service.Inventory
open Sporos.Lib.Loop

/-- What the stream has told when it ends. -/
structure MainData where
  responseId : ℕ
  fullUpdate : Bool
  changed : ℕ
  removed : ℕ
  deriving DecidableEq, Repr

/-- A call of `emit_header` or of `emit`. -/
inductive Call where
  | header (data : MainData)
  | change (change : InventoryChange)
  deriving DecidableEq, Repr

/-- A value of the document, by the type it is read as. -/
structure Value (ε : Type) where
  u64 : Except ε ℕ
  bool : Except ε Bool
  deltas : Except ε (List (Except ε (String × InventoryDelta)))
  strings : Except ε (List (Except ε String))
  ignored : Except ε Unit

/-- An error of a visitor. -/
inductive DataError (ε : Type) where
  | reader (source : ε)
  | custom (message : String)
  | missingField (field : String)
  deriving DecidableEq, Repr

/-- Why the stream is refused. -/
inductive InventoryParseError (ε : Type) where
  | limitExceeded
  | json (source : DataError ε)
  deriving DecidableEq, Repr

/-- The variables of `visit_map`, and the calls so far. -/
structure Visit where
  responseId : Option ℕ
  fullUpdate : Bool
  headerEmitted : Bool
  changed : ℕ
  removed : ℕ
  log : List Call
  deriving DecidableEq, Repr

/-- Nothing has been read yet. -/
def Visit.start : Visit := ⟨none, false, false, 0, 0, []⟩

section

variable {ε : Type} (answer : List Call → Call → Except String Unit)

/-- A call of the sink is logged, unless the sink fails. -/
def perform (log : List Call) (c : Call) : Except (DataError ε) (List Call) :=
  match answer log c with
  | .error message => .error (.custom message)
  | .ok () => .ok (log ++ [c])

/-- `checked_add(1)` on a `usize`. -/
def countOne (count : ℕ) : Except (DataError ε) ℕ :=
  if count + 1 < 2 ^ 64 then .ok (count + 1) else .error (.custom "inventory item count overflow")

/-- The header is emitted once, as soon as the id of the response is known. -/
def emitMainDataHeader (s : Visit) : Except (DataError ε) Visit :=
  if s.headerEmitted then .ok s
  else match s.responseId with
    | none => .error (.missingField "rid")
    | some responseId => do
      let log ← perform answer s.log (.header ⟨responseId, s.fullUpdate, 0, 0⟩)
      return { s with log, headerEmitted := true }

/-- An entry of `DeltaMapVisitor`: the calls and the count. -/
def visitDelta (s : List Call × ℕ) : Except ε (String × InventoryDelta) →
    Except (DataError ε) (List Call × ℕ)
  | .error e => .error (.reader e)
  | .ok (qbitId, delta) => do
    (validateId qbitId).mapError .custom
    (validateDelta delta).mapError .custom
    let log ← perform answer s.1 (.change (.upsert qbitId delta))
    let count ← countOne s.2
    return (log, count)

/-- An element of `RemovedVisitor`. -/
def visitRemoved (s : List Call × ℕ) : Except ε String → Except (DataError ε) (List Call × ℕ)
  | .error e => .error (.reader e)
  | .ok qbitId => do
    (validateId qbitId).mapError .custom
    let log ← perform answer s.1 (.change (.removed qbitId))
    let count ← countOne s.2
    return (log, count)

/-- A member of `MainDataVisitor`. -/
def visitMember (s : Visit) : Except ε (String × Value ε) → Except (DataError ε) Visit
  | .error e => .error (.reader e)
  | .ok (key, value) =>
    if key = "rid" then do
      let id ← value.u64.mapError .reader
      if s.headerEmitted ∧ s.responseId ≠ some id then
        .error (.custom "main-data response ID changed after payload began")
      else return { s with responseId := some id }
    else if key = "full_update" then do
      let full ← value.bool.mapError .reader
      if s.headerEmitted ∧ s.fullUpdate ≠ full then
        .error (.custom "main-data update mode changed after payload began")
      else return { s with fullUpdate := full }
    else if key = "torrents" then do
      let s ← emitMainDataHeader answer s
      let entries ← value.deltas.mapError .reader
      let found ← entries.foldlM (visitDelta answer) (s.log, 0)
      return { s with log := found.1, changed := found.2 }
    else if key = "torrents_removed" then do
      let s ← emitMainDataHeader answer s
      let elements ← value.strings.mapError .reader
      let found ← elements.foldlM (visitRemoved answer) (s.log, 0)
      return { s with log := found.1, removed := found.2 }
    else do
      value.ignored.mapError .reader
      return s

/-- `MainDataVisitor::visit_map`. -/
def visitMap (members : List (Except ε (String × Value ε))) :
    Except (DataError ε) (MainData × List Call) := do
  let s ← members.foldlM (visitMember answer) .start
  let s ← emitMainDataHeader answer s
  match s.responseId with
  | none => .error (.missingField "rid")
  | some responseId => return (⟨responseId, s.fullUpdate, s.changed, s.removed⟩, s.log)

/-- `classify_error`. -/
def classifyError (tooLarge : ε → Bool) : DataError ε → InventoryParseError ε
  | .reader e => if tooLarge e then .limitExceeded else .json (.reader e)
  | e => .json e

/-- The members of the object, unless the document is something else, and what follows the object.
-/
def parseMainDataWithHeader (tooLarge : ε → Bool)
    (document : Except ε (List (Except ε (String × Value ε)))) (trailing : Except ε Unit) :
      Except (InventoryParseError ε) (MainData × List Call) :=
  Except.mapError (classifyError tooLarge) do
    let members ← document.mapError .reader
    let result ← visitMap answer members
    trailing.mapError .reader
    return result

end

/-! ### The changes of a document -/

section

variable {ε : Type}

/-- The changes that a member holds, if all of it can be read. -/
def memberChanges : Except ε (String × Value ε) → Except ε (List InventoryChange)
  | .error e => .error e
  | .ok (key, value) =>
    if key = "torrents" then do
      (← value.deltas).mapM fun entry => entry.map fun found => .upsert found.1 found.2
    else if key = "torrents_removed" then do
      (← value.strings).mapM fun element => element.map .removed
    else .ok []

/-- The changes of all members, in the order of the document. -/
def documentChanges (members : List (Except ε (String × Value ε))) :
    Except ε (List InventoryChange) :=
  (members.mapM memberChanges).map List.flatten

end

/-! ### The stream -/

section

variable {ε : Type} {answer : List Call → Call → Except String Unit}

/-- Nothing has been emitted, or the header of the present id and mode and some changes. -/
structure Streamed (s : Visit) (changes : List InventoryChange) : Prop where
  before : s.headerEmitted = false → s.log = [] ∧ changes = []
  after : s.headerEmitted = true →
    ∃ id, s.responseId = some id ∧ s.log = .header ⟨id, s.fullUpdate, 0, 0⟩ :: changes.map .change

theorem perform_eq_ok {log log' : List Call} {c : Call}
    (h : perform answer log c = (.ok log' : Except (DataError ε) _)) : log' = log ++ [c] := by
  unfold perform at h
  split at h
  · cases h
  · exact (Except.ok.inj h).symm

theorem emitMainDataHeader_eq_ok {s s' : Visit} {changes : List InventoryChange}
    (hs : Streamed s changes)
    (h : emitMainDataHeader answer s = (.ok s' : Except (DataError ε) _)) :
    s'.headerEmitted = true ∧ Streamed s' changes ∧ s'.responseId = s.responseId
      ∧ s'.fullUpdate = s.fullUpdate := by
  unfold emitMainDataHeader at h
  split_ifs at h with hemitted
  · obtain rfl := Except.ok.inj h
    exact ⟨hemitted, hs, rfl, rfl⟩
  · obtain ⟨hlog, rfl⟩ := hs.before (by simpa using hemitted)
    split at h
    · cases h
    · next id hid =>
      obtain ⟨log, hperform, h⟩ := bind_eq_ok.mp h
      obtain rfl := Except.ok.inj h
      refine ⟨rfl, ⟨fun h => absurd h (by simp), fun _ => ⟨id, hid, ?_⟩⟩, rfl, rfl⟩
      simp [perform_eq_ok hperform, hlog]

/-- A loop that emits a change for each element it reads. -/
theorem foldlM_emits {α : Type}
    {f : List Call × ℕ → Except ε α → Except (DataError ε) (List Call × ℕ)}
    {read : Except ε α → Except ε InventoryChange}
    (hf : ∀ s x s', f s x = .ok s' → ∃ change,
    read x = .ok change ∧ s'.1 = s.1 ++ [.change change]) :
    ∀ (l : List (Except ε α)) {s s' : List Call × ℕ}, l.foldlM f s = .ok s' →
      ∃ changes, l.mapM read = .ok changes ∧ s'.1 = s.1 ++ changes.map .change
  | [], s, s', h => by
    obtain rfl := Except.ok.inj h
    exact ⟨[], rfl, by simp⟩
  | x :: l, s, s', h => by
    rw [List.foldlM_cons] at h
    obtain ⟨s₁, hx, h⟩ := bind_eq_ok.mp h
    obtain ⟨change, hread, hlog⟩ := hf s x s₁ hx
    obtain ⟨changes, hreads, hrest⟩ := foldlM_emits hf l h
    refine ⟨change :: changes, ?_, by rw [hrest, hlog]; simp⟩
    rw [List.mapM_cons, hread, hreads]
    rfl

theorem visitDelta_eq_ok {s s' : List Call × ℕ} {entry : Except ε (String × InventoryDelta)}
    (h : visitDelta answer s entry = .ok s') :
    ∃ change, (entry.map fun found => InventoryChange.upsert found.1 found.2) = .ok change ∧
      s'.1 = s.1 ++ [.change change] := by
  match entry with
  | .error e => cases h
  | .ok (qbitId, delta) =>
    obtain ⟨-, -, h⟩ := bind_eq_ok.mp h
    obtain ⟨-, -, h⟩ := bind_eq_ok.mp h
    obtain ⟨log, hlog, h⟩ := bind_eq_ok.mp h
    obtain ⟨count, -, h⟩ := bind_eq_ok.mp h
    obtain rfl := Except.ok.inj h
    exact ⟨_, rfl, perform_eq_ok hlog⟩

theorem visitRemoved_eq_ok {s s' : List Call × ℕ} {element : Except ε String}
    (h : visitRemoved answer s element = .ok s') :
    ∃ change, element.map InventoryChange.removed = .ok change ∧ s'.1 =
      s.1 ++ [.change change] := by
  match element with
  | .error e => cases h
  | .ok qbitId =>
    obtain ⟨-, -, h⟩ := bind_eq_ok.mp h
    obtain ⟨log, hlog, h⟩ := bind_eq_ok.mp h
    obtain ⟨count, -, h⟩ := bind_eq_ok.mp h
    obtain rfl := Except.ok.inj h
    exact ⟨_, rfl, perform_eq_ok hlog⟩

/-- More changes behind the header. -/
theorem Streamed.emit {s : Visit} {changes more : List InventoryChange} {log : List Call}
    (hs : Streamed s changes) (hemitted : s.headerEmitted = true)
    (hlog : log = s.log ++ more.map .change) {changed removed : ℕ} :
    Streamed { s with log, changed, removed } (changes ++ more) := by
  obtain ⟨id, hid, hheader⟩ := hs.after hemitted
  refine ⟨fun h => by simp [hemitted] at h, fun _ => ⟨id, hid, ?_⟩⟩
  simp [hlog, hheader]

/-- **A member** keeps the header and adds its changes. -/
theorem visitMember_eq_ok {s s' : Visit} {changes : List InventoryChange} (hs : Streamed s changes)
    {member : Except ε (String × Value ε)} (h : visitMember answer s member = .ok s') :
    ∃ more, memberChanges member = .ok more ∧ Streamed s' (changes ++ more) := by
  match member with
  | .error e => cases h
  | .ok (key, value) =>
    simp only [visitMember] at h
    simp only [memberChanges]
    by_cases hrid : key = "rid"
    · subst hrid
      rw [if_pos rfl] at h
      rw [if_neg (by decide), if_neg (by decide)]
      obtain ⟨id, -, h⟩ := bind_eq_ok.mp h
      split_ifs at h with hchanged
      obtain rfl := Except.ok.inj h
      refine ⟨[], rfl, ?_⟩
      rw [List.append_nil]
      refine ⟨hs.before, fun hemitted => ?_⟩
      obtain ⟨id', hid', hlog⟩ := hs.after hemitted
      have hsame : s.responseId = some id := by
        by_contra hne
        exact hchanged ⟨hemitted, hne⟩
      exact ⟨id, rfl, by rw [hlog, Option.some.inj (hid'.symm.trans hsame)]⟩
    rw [if_neg hrid] at h
    by_cases hfull : key = "full_update"
    · subst hfull
      rw [if_pos rfl] at h
      rw [if_neg (by decide), if_neg (by decide)]
      obtain ⟨full, -, h⟩ := bind_eq_ok.mp h
      split_ifs at h with hchanged
      obtain rfl := Except.ok.inj h
      refine ⟨[], rfl, ?_⟩
      rw [List.append_nil]
      refine ⟨hs.before, fun hemitted => ?_⟩
      obtain ⟨id, hid, hlog⟩ := hs.after hemitted
      have hsame : s.fullUpdate = full := by
        by_contra hne
        exact hchanged ⟨hemitted, hne⟩
      exact ⟨id, hid, by rw [hlog, hsame]⟩
    rw [if_neg hfull] at h
    by_cases htorrents : key = "torrents"
    · rw [if_pos htorrents] at h ⊢
      obtain ⟨s₁, hheader, h⟩ := bind_eq_ok.mp h
      obtain ⟨entries, hentries, h⟩ := bind_eq_ok.mp h
      obtain ⟨found, hfound, h⟩ := bind_eq_ok.mp h
      obtain rfl := Except.ok.inj h
      obtain ⟨hemitted, hs₁, -⟩ := emitMainDataHeader_eq_ok hs hheader
      obtain ⟨more, hmore, hlog⟩ := foldlM_emits (fun _ _ _ => visitDelta_eq_ok) entries hfound
      refine ⟨more, ?_, hs₁.emit hemitted hlog⟩
      rw [mapError_eq_ok.mp hentries]
      exact hmore
    rw [if_neg htorrents] at h ⊢
    by_cases hremoved : key = "torrents_removed"
    · rw [if_pos hremoved] at h ⊢
      obtain ⟨s₁, hheader, h⟩ := bind_eq_ok.mp h
      obtain ⟨elements, helements, h⟩ := bind_eq_ok.mp h
      obtain ⟨found, hfound, h⟩ := bind_eq_ok.mp h
      obtain rfl := Except.ok.inj h
      obtain ⟨hemitted, hs₁, -⟩ := emitMainDataHeader_eq_ok hs hheader
      obtain ⟨more, hmore, hlog⟩ := foldlM_emits (fun _ _ _ => visitRemoved_eq_ok) elements hfound
      refine ⟨more, ?_, hs₁.emit hemitted hlog⟩
      rw [mapError_eq_ok.mp helements]
      exact hmore
    · rw [if_neg hremoved] at h ⊢
      obtain ⟨-, -, h⟩ := bind_eq_ok.mp h
      obtain rfl := Except.ok.inj h
      exact ⟨[], rfl, by rwa [List.append_nil]⟩

theorem visitMembers_eq_ok {members : List (Except ε (String × Value ε))} {s : Visit}
    (h : members.foldlM (visitMember answer) .start = .ok s) :
    ∃ changes, documentChanges members = .ok changes ∧ Streamed s changes := by
  have hfold := foldlM_invariant (f := visitMember answer)
    (P := fun done s => ∃ changes, documentChanges done = .ok changes ∧ Streamed s changes)
    (fun done member s s' hdone hstep => ?_) members [] .start s ⟨[], rfl,
      ⟨fun _ => ⟨rfl, rfl⟩, fun h => absurd h (by simp [Visit.start])⟩⟩ h
  · simpa using hfold
  · obtain ⟨changes, hchanges, hs⟩ := hdone
    obtain ⟨more, hmore, hs'⟩ := visitMember_eq_ok hs hstep
    obtain ⟨lists, hlists, rfl⟩ := map_eq_ok hchanges
    refine ⟨lists.flatten ++ more, ?_, hs'⟩
    rw [documentChanges, List.mapM_append, hlists, List.mapM_cons, hmore]
    simp [bind, Except.bind, pure, Except.pure, Except.map]

/-- **The stream of the main data.** A parse that succeeds has called `emit_header` once and first,
with the response id and the mode it returns, and then `emit` for the changes of the document in
their order. -/
theorem parseMainData_streams {tooLarge : ε → Bool}
    {document : Except ε (List (Except ε (String × Value ε)))} {trailing : Except ε Unit}
    {data : MainData} {log : List Call}
    (h : parseMainDataWithHeader answer tooLarge document trailing = .ok (data, log)) :
    ∃ members changes, document = .ok members ∧ documentChanges members = .ok changes ∧
      log = .header ⟨data.responseId, data.fullUpdate, 0, 0⟩ :: changes.map .change := by
  obtain ⟨members, hmembers, h⟩ := bind_eq_ok.mp (mapError_eq_ok.mp h)
  obtain ⟨result, hresult, h⟩ := bind_eq_ok.mp h
  obtain ⟨-, -, h⟩ := bind_eq_ok.mp h
  obtain rfl := Except.ok.inj h
  obtain ⟨s, hs, h⟩ := bind_eq_ok.mp hresult
  obtain ⟨s', hs', h⟩ := bind_eq_ok.mp h
  obtain ⟨changes, hchanges, hstreamed⟩ := visitMembers_eq_ok hs
  obtain ⟨hemitted, hstreamed', -⟩ := emitMainDataHeader_eq_ok hstreamed hs'
  obtain ⟨id, hid, hlog⟩ := hstreamed'.after hemitted
  simp only [hid] at h
  obtain ⟨rfl, rfl⟩ := Prod.mk.inj (Except.ok.inj h)
  exact ⟨members, changes, mapError_eq_ok.mp hmembers, hchanges, hlog⟩

end

/-! ### A document that repeats its keys -/

/-- A value that cannot be read. -/
def unread : Value Unit := ⟨.error (), .error (), .error (), .error (), .ok ()⟩

/-- A torrent, the response id again, and a removal. -/
def repeating : List (Except Unit (String × Value Unit)) :=
  [.ok ("rid", { unread with u64 := .ok 7 }),
    .ok ("torrents", { unread with
      deltas := .ok [.ok ("ab", ⟨none, none, none, none, none, none, none, none, none, none,
      none, none, none⟩)] }),
    .ok ("rid", { unread with u64 := .ok 7 }), .ok ("server_state", unread),
    .ok ("torrents_removed", { unread with strings := .ok [.ok "cd"] }),
    .ok ("full_update", { unread with bool := .ok false })]

theorem parseMainData_streams_repeating :
    ∃ members changes, (.ok repeating : Except Unit _) = .ok members
      ∧ documentChanges members = .ok changes ∧
      [Call.header ⟨7, false, 0, 0⟩,
        .change (.upsert "ab" ⟨none, none, none, none, none, none, none, none, none, none,
        none, none, none⟩), .change (.removed "cd")] = .header ⟨7, false, 0,
          0⟩ :: changes.map .change :=
  @parseMainData_streams Unit (fun _ _ => .ok ())
    (fun _ => false) (.ok repeating) (.ok ()) ⟨7, false, 1, 1⟩ _
    (by decide +kernel)

end Sporos.Service.MainDataStream
