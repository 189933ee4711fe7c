import Mathlib
import Sporos.Service.CompletionOnce

/-! # Sequences of full updates

When the projection of full updates succeeds, for updates each of which is valid in itself. The rows
of torrents that are gone keep their hashes, and the upsert resolves a conflict of the qBittorrent
identifier only: a torrent that has a hash of the row of another torrent is an error, in this update
and in all that follow. -/

namespace Sporos.Service.FullUpdates

open Sporos.Service.Tables
open Sporos.Service.Ingress
open Sporos.Service.Inventory
open Sporos.Service.Sources
open Sporos.Service.Completion
open Sporos.Service.QbitProjection
open Sporos.Service.QbitSync
open Sporos.Service.CompletionOnce
open Sporos.Lib.Table
open Sporos.Lib.Loop

/-! ### The hashes of a torrent -/

/-- The hash of a torrent, if it has one. -/
def v1Of (torrent : InventoryTorrent) : Option Bytes :=
  (optionalHash (some torrent.infohashV1) 20 "infohash_v1").toOption.join

/-- The hash of the second version of a torrent. -/
def v2Of (torrent : InventoryTorrent) : Option Bytes :=
  (optionalHash (some torrent.infohashV2) 32 "infohash_v2").toOption.join

theorem hexPairs_isSome : ∀ (bytes : Bytes), (∀ b ∈ bytes, (hexValue b).isSome = true) →
    (hexPairs bytes).isSome = true
  | [], _ => rfl
  | [_], _ => rfl
  | high :: low :: rest, h => by
    obtain ⟨high', hhigh⟩ := Option.isSome_iff_exists.mp (h high (by simp))
    obtain ⟨low', hlow⟩ := Option.isSome_iff_exists.mp (h low (by simp))
    obtain ⟨rest', hrest⟩ :=
      Option.isSome_iff_exists.mp (hexPairs_isSome rest fun b hb => h b (by simp [hb]))
    simp [hexPairs, hhigh, hlow, hrest]

/-- A hash that has been validated is decoded; it is there unless the text is empty. -/
theorem optionalHash_of_validateHash {value : String} (bytes : ℕ) (field : String)
    (h : validateHash value (bytes * 2) = .ok ()) :
    ∃ hash, optionalHash (some value) bytes field = .ok hash ∧ (hash = none ↔ value = "") := by
  unfold validateHash at h
  split_ifs at h with hinvalid
  by_cases hempty : value = ""
  · subst hempty
    exact ⟨none, by simp [optionalHash, Option.filter], by simp⟩
  · have hlength : (utf8 value).length = bytes * 2 := by
      by_contra hne
      exact hinvalid ⟨hempty, .inl hne⟩
    have hhex : isHex value = true := by
      by_contra hne
      exact hinvalid ⟨hempty, .inr (by simpa using hne)⟩
    obtain ⟨hash, hpairs⟩ := Option.isSome_iff_exists.mp
      (hexPairs_isSome (utf8 value) (by simpa [isHex] using hhex))
    refine ⟨some hash, ?_, by simp [hempty]⟩
    simp [optionalHash, hempty, Option.filter, decodeHex, hlength, hpairs, Except.map]

/-! ### Updates -/

/-- A full update: a synchronisation, with the identifier of the response, or a reconciliation. -/
structure FullUpdate where
  responseId : Option ℕ
  batches : List (List InventoryTorrent)
  now : ℤ

/-- The torrents of a full update. -/
def FullUpdate.torrents (update : FullUpdate) : List InventoryTorrent := update.batches.flatten

/-- The attempt to apply a full update. -/
def FullUpdate.attempt (update : FullUpdate) : Attempt :=
  match update.responseId with
  | some responseId =>
    .sync responseId true (update.batches.map (·.map InventoryTorrent.change)) true update.now
  | none => .reconcile update.batches true update.now

/-- A torrent that passes validation and has a hash. -/
structure ValidTorrent (torrent : InventoryTorrent) : Prop where
  validated : validate torrent = .ok ()
  hashed : torrent.infohashV1 ≠ "" ∨ torrent.infohashV2 ≠ ""

/-- An update that is valid in itself. -/
structure ValidUpdate (update : FullUpdate) : Prop where
  torrents : ∀ torrent ∈ update.torrents, ValidTorrent torrent
  ids : update.torrents.Pairwise fun a b => a.hash ≠ b.hash
  v1 : update.torrents.Pairwise fun a b => v1Of a = none ∨ v1Of a ≠ v1Of b
  v2 : update.torrents.Pairwise fun a b => v2Of a = none ∨ v2Of a ≠ v2Of b

/-- The updates, each of them completed. -/
def allCompleted (codec : QbitCodec) : Store → List FullUpdate → Bool
  | _, [] => true
  | store, update :: updates =>
    (update.attempt.run codec store).2
      && allCompleted codec (update.attempt.run codec store).1 updates

/-! ### The hashes that rows have -/

/-- The last hash that torrents give for a qBittorrent identifier. -/
def held (hash : InventoryTorrent → Option Bytes) (before : List InventoryTorrent)
    (qbitId : String) : Option Bytes :=
  ((before.filter fun torrent => torrent.hash = qbitId).filterMap hash).getLast?

/-- The torrent has, or keeps, a hash that earlier torrents give for another identifier. -/
def Clash (before : List InventoryTorrent) (torrent : InventoryTorrent) : Prop :=
  ∃ qbitId, qbitId ≠ torrent.hash
    ∧ ∃ hash,
      ((v1Of torrent).or (held v1Of before torrent.hash) = some hash
        ∧ held v1Of before qbitId = some hash)
      ∨ ((v2Of torrent).or (held v2Of before torrent.hash) = some hash
        ∧ held v2Of before qbitId = some hash)

/-- The sizes of the torrent are values of `i64`. -/
def SizesFit (torrent : InventoryTorrent) : Prop :=
  torrent.totalSize ≤ i64Max ∧ torrent.amountLeft ≤ i64Max

theorem held_concat_self (hash : InventoryTorrent → Option Bytes) (before : List InventoryTorrent)
    (torrent : InventoryTorrent) :
    held hash (before ++ [torrent]) torrent.hash =
      (hash torrent).or (held hash before torrent.hash) := by
  unfold held
  rw [List.filter_append, List.filter_cons_of_pos (by simp), List.filter_nil, List.filterMap_append]
  cases h : hash torrent <;> simp [h]

theorem held_concat_of_ne (hash : InventoryTorrent → Option Bytes) (before : List InventoryTorrent)
    {torrent : InventoryTorrent} {qbitId : String} (hne : qbitId ≠ torrent.hash) :
    held hash (before ++ [torrent]) qbitId = held hash before qbitId := by
  unfold held
  rw [List.filter_append, List.filter_cons_of_neg (by simpa using hne.symm), List.filter_nil,
    List.append_nil]

/-! ### The fields of a complete record -/

/-- The parts of the validation that the projection depends on. -/
theorem ValidTorrent.parts {torrent : InventoryTorrent} (h : ValidTorrent torrent) :
    optionalHash (some torrent.infohashV1) 20 "infohash_v1" = .ok (v1Of torrent)
      ∧ optionalHash (some torrent.infohashV2) 32 "infohash_v2" = .ok (v2Of torrent)
      ∧ (v1Of torrent ≠ none ∨ v2Of torrent ≠ none)
      ∧ 0 ≤ torrent.progress ∧ torrent.progress ≤ 1 := by
  have hvalidated := h.validated
  unfold validate at hvalidated
  obtain ⟨-, -, hvalidated⟩ := bind_eq_ok.mp hvalidated
  obtain ⟨⟨⟩, hv1, hvalidated⟩ := bind_eq_ok.mp hvalidated
  obtain ⟨⟨⟩, hv2, hvalidated⟩ := bind_eq_ok.mp hvalidated
  obtain ⟨⟨⟩, hprogress, -⟩ := bind_eq_ok.mp hvalidated
  obtain ⟨hash₁, hhash₁, hnone₁⟩ := optionalHash_of_validateHash 20 "infohash_v1" hv1
  obtain ⟨hash₂, hhash₂, hnone₂⟩ := optionalHash_of_validateHash 32 "infohash_v2" hv2
  have hv1Of : v1Of torrent = hash₁ := by simp [v1Of, hhash₁, Except.toOption, Option.join]
  have hv2Of : v2Of torrent = hash₂ := by simp [v2Of, hhash₂, Except.toOption, Option.join]
  rw [hv1Of, hv2Of]
  refine ⟨hhash₁, hhash₂, h.hashed.imp (fun hne => ?_) (fun hne => ?_), ?_⟩
  · exact fun hnone => hne (hnone₁.mp hnone)
  · exact fun hnone => hne (hnone₂.mp hnone)
  · unfold validateProgress at hprogress
    split_ifs at hprogress with hrange
    exact hrange

/-- The fields of a complete record: they are there if the sizes fit, with the hashes of the record
or of the row. -/
theorem mergeFields_delta {torrent : InventoryTorrent} (h : ValidTorrent torrent)
    (existing : Option TorrentRow) :
    ((∃ fields, mergeFields existing torrent.delta = .ok fields) ↔ SizesFit torrent)
      ∧ ∀ fields, mergeFields existing torrent.delta = .ok fields →
        fields.v1Hash = (v1Of torrent).or (existing.bind TorrentRow.v1Hash)
          ∧ fields.v2Hash = (v2Of torrent).or (existing.bind TorrentRow.v2Hash) := by
  obtain ⟨hv1, hv2, hhashed, hprogress⟩ := h.parts
  have hinfohash : ¬ (((v1Of torrent).or (existing.bind TorrentRow.v1Hash)).isNone = true
      ∧ ((v2Of torrent).or (existing.bind TorrentRow.v2Hash)).isNone = true) := by
    rcases hhashed with hne | hne <;> simp [hne]
  have hprogressPpm : progress (some torrent.progress) (existing.map TorrentRow.progressPpm)
      = .ok ⌊torrent.progress * 1000000 + 1 / 2⌋ := if_pos hprogress
  have heq : mergeFields existing torrent.delta
      = if torrent.totalSize > i64Max then .error (.range "total_size")
        else if torrent.amountLeft > i64Max then .error (.range "amount_left")
        else .ok ⟨(v1Of torrent).or (existing.bind TorrentRow.v1Hash),
          (v2Of torrent).or (existing.bind TorrentRow.v2Hash), torrent.name, torrent.totalSize,
          torrent.amountLeft, ⌊torrent.progress * 1000000 + 1 / 2⌋, torrent.state, torrent.savePath,
          torrent.contentPath, torrent.category, tagList torrent.tags⟩ := by
    unfold mergeFields
    simp only [InventoryTorrent.delta, hv1, hv2, hprogressPpm]
    simp only [bind, Except.bind, pure, Except.pure]
    rw [if_neg hinfohash]
    simp only [required, integer, toI64, Option.some_or, Option.map_some]
    split_ifs <;> rfl
  rw [heq]
  unfold SizesFit
  by_cases htotal : torrent.totalSize > i64Max
  · simp [htotal]
  · by_cases hamount : torrent.amountLeft > i64Max
    · simp [htotal, hamount]
    · simp only [if_neg htotal, if_neg hamount, Except.ok.injEq, exists_eq', true_iff]
      refine ⟨⟨not_lt.mp htotal, not_lt.mp hamount⟩, ?_⟩
      rintro fields rfl
      exact ⟨rfl, rfl⟩

/-! ### One torrent -/

/-- The completions that torrents can have. -/
def possible (codec : QbitCodec) (ids : Set String) (times : Set ℤ) : Set (Id × ℤ) :=
  {p | (∃ qbitId ∈ ids, p.1 = sourceId codec qbitId) ∧ p.2 ∈ times}

/-- The store after torrents that have been projected: its rows have the hashes that these torrents
give. -/
structure Holds (codec : QbitCodec) (ids : Set String) (times : Set ℤ)
    (before : List InventoryTorrent) (store : Store) : Prop where
  recording : ∃ recorded, Recording codec (possible codec ids times) recorded store
  v1 : ∀ qbitId, (store.torrent qbitId).bind TorrentRow.v1Hash = held v1Of before qbitId
  v2 : ∀ qbitId, (store.torrent qbitId).bind TorrentRow.v2Hash = held v2Of before qbitId
  ids : ∀ row ∈ store.torrents, row.qbitId ∈ ids
  times : ∀ row ∈ store.torrents, ∀ time, row.completedAt = some time → time ∈ times

section

variable {codec : QbitCodec} {ids : Set String} {times : Set ℤ} {before : List InventoryTorrent}
  {store store' : Store} {torrent : InventoryTorrent} {generation : ℕ} {now : ℤ}

theorem Holds.torrents (h : Holds codec ids times before store) : Torrents codec store :=
  let ⟨_, hrecording⟩ := h.recording
  hrecording.torrents

/-- A row of another torrent has a hash of the row if the hashes clash. -/
theorem Holds.hashTaken_iff (h : Holds codec ids times before store) {row : TorrentRow}
    (hqbitId : row.qbitId = torrent.hash)
    (hv1 : row.v1Hash = (v1Of torrent).or (held v1Of before torrent.hash))
    (hv2 : row.v2Hash = (v2Of torrent).or (held v2Of before torrent.hash)) :
    HashTaken store.torrents row ↔ Clash before torrent := by
  unfold HashTaken Clash
  rw [← hv1, ← hv2, hqbitId]
  constructor
  · rintro ⟨other, hmem, hne, htaken⟩
    have hother : store.torrent other.qbitId = some other :=
      UniqueKey.lookup_of_mem h.torrents.unique hmem rfl
    refine ⟨other.qbitId, hne, ?_⟩
    rcases htaken with ⟨hsome, heq⟩ | ⟨hsome, heq⟩
    · obtain ⟨hash, hhash⟩ := Option.isSome_iff_exists.mp hsome
      refine ⟨hash, .inl ⟨hhash, ?_⟩⟩
      rw [← h.v1, hother, Option.bind_some, heq, hhash]
    · obtain ⟨hash, hhash⟩ := Option.isSome_iff_exists.mp hsome
      refine ⟨hash, .inr ⟨hhash, ?_⟩⟩
      rw [← h.v2, hother, Option.bind_some, heq, hhash]
  · rintro ⟨qbitId, hne, hash, ⟨hrow, hheld⟩ | ⟨hrow, hheld⟩⟩
    · rw [← h.v1] at hheld
      obtain ⟨other, hother, hhash⟩ := Option.bind_eq_some_iff.mp hheld
      obtain ⟨hmem, rfl⟩ := lookup_eq_some_mem hother
      exact ⟨other, hmem, hne, .inl ⟨by rw [hrow]; rfl, hhash.trans hrow.symm⟩⟩
    · rw [← h.v2] at hheld
      obtain ⟨other, hother, hhash⟩ := Option.bind_eq_some_iff.mp hheld
      obtain ⟨hmem, rfl⟩ := lookup_eq_some_mem hother
      exact ⟨other, hmem, hne, .inr ⟨by rw [hrow]; rfl, hhash.trans hrow.symm⟩⟩

/-- The upsert of a torrent fails if a hash is taken only. -/
theorem Holds.upsertTorrent_isSome_iff (h : Holds codec ids times before store)
    (hids : Set.InjOn (sourceId codec) ids) {row : TorrentRow} (hmem : row.qbitId ∈ ids)
    (hid : row.id = sourceId codec row.qbitId) :
    (upsertTorrent store.torrents row).isSome = true ↔ ¬ HashTaken store.torrents row := by
  unfold upsertTorrent
  by_cases htaken : HashTaken store.torrents row
  · simp [htaken]
  · rw [if_neg htaken]
    simp only [htaken, not_false_eq_true, iff_true]
    by_cases hknown : (lookup TorrentRow.qbitId store.torrents row.qbitId).isSome = true
    · rw [if_pos hknown]
      rfl
    · rw [if_neg hknown, if_neg]
      · rfl
      · intro hsome
        obtain ⟨other, hother⟩ := Option.isSome_iff_exists.mp hsome
        obtain ⟨hother, hsame⟩ := lookup_eq_some_mem hother
        rw [h.torrents.identified other hother, hid] at hsame
        have hqbitId := hids (h.ids other hother) hmem hsame
        exact hknown (hqbitId ▸ lookup_isSome_of_mem TorrentRow.qbitId hother)

/-- SHA-256 has no collision among the texts that name torrents and completions. -/
structure NoCollisions (codec : QbitCodec) (ids : Set String) (times : Set ℤ) : Prop where
  sources : Set.InjOn (sourceId codec) ids
  completions : NoCollision codec.completion (possible codec ids times)
  times : ∀ time ∈ times, IsI64 time

theorem NoCollisions.separates (h : NoCollisions codec ids times) :
    Separates codec.completion (possible codec ids times) :=
  h.completions.separates fun p hp => h.times p.2 hp.2

/-- A torrent of an update, with its identifier and its time among those that are known. -/
structure Listed (ids : Set String) (times : Set ℤ) (torrent : InventoryTorrent) : Prop where
  valid : ValidTorrent torrent
  id : torrent.hash ∈ ids
  time : torrent.completionOn ∈ times

/-- The time of the completion of a torrent is among those that are known. -/
theorem Holds.completedAt_mem (h : Holds codec ids times before store)
    (hlisted : Listed ids times torrent) (hnow : now ∈ times) {fields : Fields} {completedAt : ℤ}
    (hcompletedAt : fields.completedAt (store.torrent torrent.hash) torrent.delta now =
      some completedAt) :
    completedAt ∈ times := by
  refine Fields.completedAt_of (P := (· ∈ times)) hnow ?_ ?_ hcompletedAt
  · rintro time htime
    obtain rfl : torrent.completionOn = time := Option.some_inj.mp htime
    exact hlisted.time
  · intro time htime
    obtain ⟨row, hrow, hrow'⟩ := Option.bind_eq_some_iff.mp htime
    exact h.times row (lookup_eq_some_mem hrow).1 time hrow'

/-- **One torrent** is projected if its sizes fit and none of its hashes is the one of another row.
-/
theorem Holds.projectTorrent_ok_iff (h : Holds codec ids times before store)
    (hsha256 : NoCollisions codec ids times) (hlisted : Listed ids times torrent)
    (hnow : now ∈ times) (generation : ℕ) (detectCompletions : Bool) :
    (∃ result, projectTorrent codec store torrent.hash torrent.delta generation
      detectCompletions now
        = .ok result)
      ↔ SizesFit torrent ∧ ¬ Clash before torrent := by
  obtain ⟨hok, hhashes⟩ := mergeFields_delta hlisted.valid (store.torrent torrent.hash)
  -- The hashes of the row, and when another row has them.
  have hupsert : ∀ fields, mergeFields (store.torrent torrent.hash) torrent.delta = .ok fields →
      ((upsertTorrent store.torrents (fields.row codec (store.torrent torrent.hash) torrent.hash
        torrent.delta generation detectCompletions now)).isSome = true
          ↔ ¬ Clash before torrent) := by
    intro fields hfields
    obtain ⟨hv1, hv2⟩ := hhashes fields hfields
    rw [h.v1] at hv1
    rw [h.v2] at hv2
    rw [h.upsertTorrent_isSome_iff hsha256.sources (by rw [row_qbitId]; exact hlisted.id) rfl,
      h.hashTaken_iff (row_qbitId fields _) hv1 hv2]
  rw [QbitProjection.projectTorrent_ok_iff]
  constructor
  · rintro ⟨fields, torrents, hfields, htorrents, -⟩
    exact ⟨hok.mp ⟨fields, hfields⟩, (hupsert fields hfields).mp (by rw [htorrents]; rfl)⟩
  · rintro ⟨hsizes, hclash⟩
    obtain ⟨fields, hfields⟩ := hok.mpr hsizes
    obtain ⟨torrents, htorrents⟩ :=
      Option.isSome_iff_exists.mp ((hupsert fields hfields).mpr hclash)
    refine ⟨fields, torrents, hfields, htorrents, fun completedAt hcompletion => ?_⟩
    obtain ⟨recorded, hrecording⟩ := h.recording
    have hpossible : (sourceId codec torrent.hash, completedAt) ∈ possible codec ids times :=
      ⟨⟨torrent.hash, hlisted.id, rfl⟩,
        h.completedAt_mem hlisted hnow (completion_eq_some_iff.mp hcompletion).2.2.2⟩
    have hseparates : Separates codec.completion
        {p | p = (sourceId codec torrent.hash, completedAt) ∨ p ∈ recorded} := by
      refine hsha256.separates.mono ?_
      rintro p (rfl | hp)
      · exact hpossible
      · exact hrecording.subset p hp
    have hlock : Lockstep codec.completion recorded { store with torrents } :=
      hrecording.lockstep.of_eq rfl rfl rfl
    exact hlock.accept_isSome hseparates now

/-- **One torrent** that is projected leaves its hashes and the rest as it was. -/
theorem Holds.change (h : Holds codec ids times before store)
    (hsha256 : NoCollisions codec ids times) (hlisted : Listed ids times torrent)
    (hnow : now ∈ times) {batch batch' : ProjectionBatch}
    (hchange : projectChange codec generation store.inventory.baselineAt.isSome now (store, batch)
      torrent.change = .ok (store', batch')) :
    Holds codec ids times (before ++ [torrent]) store' := by
  obtain ⟨recorded, hrecording⟩ := h.recording
  obtain ⟨⟨store₁, completion, manifestNeeded⟩, hproject, hresult⟩ := bind_eq_ok.mp hchange
  obtain ⟨rfl, -⟩ : store₁ = store' ∧ _ := by simpa [pure, Except.pure] using hresult
  obtain ⟨fields, hfields, htorrents, hothers, ⟨row, hrow, -, -, hcompletedAt, hv1, hv2⟩, -⟩ :=
    torrent_projectTorrent h.torrents hproject
  obtain ⟨hv1', hv2'⟩ := (mergeFields_delta hlisted.valid _).2 fields hfields
  have hsubset : ∀ p, RecordedIn [(store, store₁)] p → p ∈ possible codec ids times := by
    intro p hp
    rw [recordedIn_singleton, completes_projectTorrent_iff h.torrents hfields hproject] at hp
    exact ⟨⟨torrent.hash, hlisted.id, hp.2⟩,
      h.completedAt_mem hlisted hnow (completion_eq_some_iff.mp hp.1).2.2.2⟩
  obtain ⟨recorded', hrecording', -⟩ := hrecording.change hsha256.separates hsubset hchange
  have hrows : ∀ new ∈ store₁.torrents, new = row ∧ new.qbitId = torrent.hash
      ∨ new ∈ store.torrents := by
    intro new hnew
    have hnew' : store₁.torrent new.qbitId = some new :=
      UniqueKey.lookup_of_mem htorrents.unique hnew rfl
    by_cases heq : new.qbitId = torrent.hash
    · rw [heq] at hnew'
      exact .inl ⟨Option.some_inj.mp (hnew'.symm.trans hrow), heq⟩
    · rw [hothers _ heq] at hnew'
      exact .inr (lookup_eq_some_mem hnew').1
  refine ⟨⟨recorded', hrecording'⟩, fun qbitId => ?_, fun qbitId => ?_, fun new hnew => ?_,
    fun new hnew time htime => ?_⟩
  · by_cases heq : qbitId = torrent.hash
    · rw [heq, held_concat_self, hrow, Option.bind_some, hv1, hv1', h.v1]
    · rw [hothers _ heq, held_concat_of_ne _ _ heq, h.v1]
  · by_cases heq : qbitId = torrent.hash
    · rw [heq, held_concat_self, hrow, Option.bind_some, hv2, hv2', h.v2]
    · rw [hothers _ heq, held_concat_of_ne _ _ heq, h.v2]
  · rcases hrows new hnew with ⟨-, heq⟩ | hold
    · rw [heq]
      exact hlisted.id
    · exact h.ids new hold
  · rcases hrows new hnew with ⟨rfl, -⟩ | hold
    · exact h.completedAt_mem hlisted hnow (hcompletedAt.symm.trans htime)
    · exact h.times new hold time htime

/-- When a change of a complete record is no error. -/
theorem Holds.projectChange_ok_iff (h : Holds codec ids times before store)
    (hsha256 : NoCollisions codec ids times) (hlisted : Listed ids times torrent)
    (hnow : now ∈ times) (detectCompletions : Bool) (batch : ProjectionBatch) :
    (∃ result, projectChange codec generation detectCompletions now (store, batch) torrent.change
        = .ok result)
      ↔ SizesFit torrent ∧ ¬ Clash before torrent := by
  rw [← h.projectTorrent_ok_iff hsha256 hlisted hnow generation detectCompletions]
  constructor
  · rintro ⟨result, hresult⟩
    obtain ⟨result', hproject, -⟩ := bind_eq_ok.mp hresult
    exact ⟨result', hproject⟩
  · rintro ⟨result, hproject⟩
    exact ⟨_, bind_eq_ok.mpr ⟨result, hproject, rfl⟩⟩

/-! ### Updates -/

/-- All torrents meet the condition under which they are projected. -/
def AllFit (before torrents : List InventoryTorrent) : Prop :=
  ∀ earlier torrent later, torrents = earlier ++ torrent :: later →
    SizesFit torrent ∧ ¬ Clash (before ++ earlier) torrent

theorem allFit_append {torrents torrents' : List InventoryTorrent} :
    AllFit before (torrents ++ torrents')
      ↔ AllFit before torrents ∧ AllFit (before ++ torrents) torrents' := by
  constructor
  · intro h
    constructor
    · rintro earlier torrent later rfl
      exact h earlier torrent (later ++ torrents') (by simp)
    · rintro earlier torrent later rfl
      have := h (torrents ++ earlier) torrent later (by simp)
      rwa [← List.append_assoc] at this
  · rintro ⟨h, h'⟩ earlier torrent later heq
    rcases List.append_eq_append_iff.mp heq with ⟨rest, rfl, hrest⟩ | ⟨rest, rfl, hrest⟩
    · rw [← List.append_assoc]
      exact h' rest torrent later hrest
    · cases rest with
      | nil =>
        have := h' [] torrent later hrest.symm
        simpa using this
      | cons first rest =>
        obtain ⟨rfl, -⟩ := List.cons.inj hrest
        exact h earlier torrent rest rfl

/-- **A batch** of complete records is committed if all of its torrents fit. -/
theorem Holds.projectQbitBatch_ok_iff (h : Holds codec ids times before store)
    (hsha256 : NoCollisions codec ids times) {torrents : List InventoryTorrent}
    (hlisted : ∀ torrent ∈ torrents, Listed ids times torrent) (hnow : now ∈ times)
    (hgeneration : generation ≤ i64Max) :
    ((∃ result, projectQbitBatch codec store (torrents.map InventoryTorrent.change) generation
          store.inventory.baselineAt.isSome now = .ok result) ↔ AllFit before torrents)
      ∧ ∀ result, projectQbitBatch codec store (torrents.map InventoryTorrent.change) generation
          store.inventory.baselineAt.isSome now = .ok result →
        Holds codec ids times (before ++ torrents) result.1
          ∧ result.1.inventory = store.inventory := by
  have heq : projectQbitBatch codec store (torrents.map InventoryTorrent.change) generation
      store.inventory.baselineAt.isSome now
      = torrents.foldlM (fun result torrent => projectChange codec generation
        store.inventory.baselineAt.isSome now result torrent.change) (store, ⟨0, [], []⟩) := by
    rw [projectQbitBatch, toI64, if_neg (not_lt.mpr hgeneration)]
    exact List.foldlM_map
  rw [heq]
  have hloop := foldlM_ok_iff
    (f := fun result torrent => projectChange codec generation store.inventory.baselineAt.isSome now
      result torrent.change)
    (I := fun done result => Holds codec ids times (before ++ done) result.1
      ∧ result.1.inventory = store.inventory)
    (C := fun done torrent => SizesFit torrent ∧ ¬ Clash (before ++ done) torrent)
    (V := Listed ids times)
    (fun done torrent result hlisted hresult => by
      obtain ⟨store₁, batch⟩ := result
      refine ⟨hresult.1.projectChange_ok_iff hsha256 hlisted hnow _ batch, fun result' hok => ?_⟩
      have hinventory := (projectChange_presence hok).2.1
      rw [← hresult.2] at hok
      rw [← List.append_assoc]
      exact ⟨hresult.1.change hsha256 hlisted hnow hok, hinventory.trans hresult.2⟩)
    torrents [] (store, ⟨0, [], []⟩) hlisted ⟨by simpa using h, rfl⟩
  simpa [AllFit] using hloop

/-- **The batches** of an update are committed if all of its torrents fit. -/
theorem Holds.commitBatches_iff (h : Holds codec ids times before store)
    (hsha256 : NoCollisions codec ids times) {batches : List (List InventoryTorrent)}
    (hlisted : ∀ torrent ∈ batches.flatten, Listed ids times torrent) (hnow : now ∈ times)
    (hgeneration : generation ≤ i64Max) {detectCompletions done : Bool}
    (hdetect : detectCompletions = store.inventory.baselineAt.isSome)
    (hcommit : commitBatches codec generation detectCompletions now store
      (batches.map (·.map InventoryTorrent.change)) = (store', done)) :
    (done = true ↔ AllFit before batches.flatten)
      ∧ (done = true → Holds codec ids times (before ++ batches.flatten) store'
        ∧ store'.inventory = store.inventory) := by
  induction batches generalizing store before with
  | nil =>
    obtain ⟨rfl, rfl⟩ : store = store' ∧ true = done := by simpa [commitBatches] using hcommit
    refine ⟨⟨fun _ => ?_, fun _ => rfl⟩, fun _ => ⟨by simpa using h, rfl⟩⟩
    rintro earlier torrent later heq
    simp at heq
  | cons batch batches ih =>
    rw [List.flatten_cons] at hlisted ⊢
    subst hdetect
    obtain ⟨hok, hnext⟩ := h.projectQbitBatch_ok_iff hsha256
      (fun torrent hmem => hlisted torrent (List.mem_append_left _ hmem)) hnow hgeneration
    rw [List.map_cons, commitBatches] at hcommit
    rw [allFit_append, ← List.append_assoc]
    cases hbatch : projectQbitBatch codec store (batch.map InventoryTorrent.change) generation
        store.inventory.baselineAt.isSome now with
    | error e =>
      simp only [hbatch, Prod.mk.injEq] at hcommit
      obtain ⟨-, rfl⟩ := hcommit
      have hfit : ¬ AllFit before batch := by
        intro hfit
        obtain ⟨result, hresult⟩ := hok.mpr hfit
        rw [hbatch] at hresult
        cases hresult
      simp [hfit]
    | ok result =>
      obtain ⟨store₁, result⟩ := result
      simp only [hbatch] at hcommit
      obtain ⟨hholds, hinventory⟩ := hnext _ hbatch
      obtain ⟨hdone, hend⟩ := ih hholds
        (fun torrent hmem => hlisted torrent (List.mem_append_right _ hmem))
        (by rw [hinventory]) hcommit
      have hfit : AllFit before batch := hok.mp ⟨_, hbatch⟩
      refine ⟨by rw [hdone]; simp [hfit], fun htrue => ?_⟩
      exact ⟨(hend htrue).1, (hend htrue).2.trans hinventory⟩

/-- The sweep keeps the hashes. -/
theorem Holds.sweep (h : Holds codec ids times before store) (generation : ℕ) (now : ℤ)
    (inventory : InventoryState) :
    Holds codec ids times before { QbitProjection.sweep store generation now with inventory } := by
  obtain ⟨recorded, hrecording⟩ := h.recording
  have hsame : ∀ row, (sweptRow generation now row).v1Hash = row.v1Hash
      ∧ (sweptRow generation now row).v2Hash = row.v2Hash
      ∧ (sweptRow generation now row).completedAt = row.completedAt
      ∧ (sweptRow generation now row).id = row.id
      ∧ (sweptRow generation now row).isComplete = row.isComplete := by
    intro row
    unfold sweptRow
    split <;> exact ⟨rfl, rfl, rfl, rfl, rfl⟩
  have hlookup : ∀ qbitId,
      Store.torrent { QbitProjection.sweep store generation now with inventory } qbitId
        = (store.torrent qbitId).map (sweptRow generation now) :=
    lookup_map (sweptRow_qbitId generation now) store.torrents
  have hswept : Torrents codec { QbitProjection.sweep store generation now with inventory }
      ∧ ∀ p, ¬ Completes store { QbitProjection.sweep store generation now with inventory } p :=
    Torrents.map (g := sweptRow generation now)
      (fun row => ⟨sweptRow_qbitId generation now row, (hsame row).2.2.2⟩) hrecording.torrents rfl
  obtain ⟨recorded', hrecording', -⟩ := hrecording.of_not_completes hswept rfl rfl rfl
  refine ⟨⟨recorded', hrecording'⟩, fun qbitId => ?_, fun qbitId => ?_, fun row hmem => ?_,
    fun row hmem time htime => ?_⟩
  · rw [hlookup, ← h.v1, Option.bind_map]
    exact congrArg (Option.bind _) (funext fun row => (hsame row).1)
  · rw [hlookup, ← h.v2, Option.bind_map]
    exact congrArg (Option.bind _) (funext fun row => (hsame row).2.1)
  · obtain ⟨old, hold, rfl⟩ := List.mem_map.mp hmem
    have hid : (sweptRow generation now old).qbitId ∈ ids := by
      rw [sweptRow_qbitId]
      exact h.ids old hold
    exact hid
  · obtain ⟨old, hold, rfl⟩ := List.mem_map.mp hmem
    exact h.times old hold time ((hsame old).2.2.1.symm.trans htime)

/-- The identifier of the response is a value of `i64`. -/
def ResponseFits (update : FullUpdate) : Prop :=
  ∀ responseId ∈ update.responseId, responseId ≤ i64Max

theorem FullUpdate.attempt_eq (update : FullUpdate) :
    update.attempt.full = true ∧ update.attempt.now = update.now
      ∧ update.attempt.batches = update.batches.map (·.map InventoryTorrent.change) := by
  unfold FullUpdate.attempt
  split <;> exact ⟨rfl, rfl, rfl⟩

/-- When the end of an update is no error. -/
theorem FullUpdate.finish_isSome_iff (update : FullUpdate) (generation : ℕ) (store : Store) :
    (update.attempt.finish generation store).isSome = true
      ↔ generation ≤ i64Max ∧ ResponseFits update := by
  unfold FullUpdate.attempt ResponseFits
  by_cases hgeneration : generation > i64Max
  · have hgeneration' : ¬ generation ≤ i64Max := not_le.mpr hgeneration
    cases update.responseId with
    | none =>
      simp [Attempt.finish, finishQbitReconcile, toI64, hgeneration, hgeneration',
        bind, Except.bind, Except.toOption]
    | some responseId =>
      by_cases hresponse : responseId > i64Max <;>
        simp [Attempt.finish, finishQbitSync, toI64, hgeneration, hgeneration', hresponse, bind,
          Except.bind, Except.toOption]
  · have hgeneration' : generation ≤ i64Max := not_lt.mp hgeneration
    cases update.responseId with
    | none =>
      simp [Attempt.finish, finishQbitReconcile, toI64, hgeneration, hgeneration',
        bind, Except.bind, pure, Except.pure, Except.toOption]
    | some responseId =>
      by_cases hresponse : responseId > i64Max
      · have hresponse' : ¬ responseId ≤ i64Max := not_le.mpr hresponse
        simp [Attempt.finish, finishQbitSync, toI64, hresponse, hresponse', bind,
          Except.bind, Except.toOption]
      · have hresponse' : responseId ≤ i64Max := not_lt.mp hresponse
        simp [Attempt.finish, finishQbitSync, toI64, hgeneration, hgeneration',
          hresponse, hresponse', bind, Except.bind, pure, Except.pure, Except.toOption]

/-- **An update** is completed if its numbers and all of its torrents fit. -/
theorem Holds.run_iff (h : Holds codec ids times before store)
    (hsha256 : NoCollisions codec ids times) (update : FullUpdate)
    (hlisted : ∀ torrent ∈ update.torrents, Listed ids times torrent) (hnow : update.now ∈ times) :
    ((update.attempt.run codec store).2 = true
        ↔ store.inventory.generation + 1 ≤ i64Max ∧ ResponseFits update
          ∧ AllFit before update.torrents)
      ∧ ((update.attempt.run codec store).2 = true →
        Holds codec ids times (before ++ update.torrents) (update.attempt.run codec store).1
          ∧ (update.attempt.run codec store).1.inventory.generation
            = store.inventory.generation + 1) := by
  obtain ⟨hfull, hattemptNow, hbatches⟩ := update.attempt_eq
  have hgeneration : update.attempt.generation store = store.inventory.generation + 1 := by
    rw [Attempt.generation, if_pos hfull]
  rw [Attempt.run, if_neg (by simp [hfull])]
  simp only [hgeneration, hattemptNow, hbatches]
  cases hcommit : commitBatches codec (store.inventory.generation + 1)
      store.inventory.baselineAt.isSome update.now store
      (update.batches.map (·.map InventoryTorrent.change)) with
  | mk store₁ done =>
    have hfinish := update.finish_isSome_iff (store.inventory.generation + 1) store₁
    by_cases hrange : store.inventory.generation + 1 ≤ i64Max
    · obtain ⟨hdone, hend⟩ := h.commitBatches_iff hsha256 hlisted hnow hrange rfl hcommit
      cases done with
      | false =>
        have hfit : ¬ AllFit before update.torrents := fun hfit => by cases hdone.mpr hfit
        simp [hfit]
      | true =>
        have hfit : AllFit before update.torrents := hdone.mp rfl
        simp only [hrange, true_and] at hfinish
        cases hstore : update.attempt.finish (store.inventory.generation + 1) store₁ with
        | none =>
          rw [hstore] at hfinish
          simp only [Option.isSome_none, Bool.false_eq_true, false_iff] at hfinish
          simp [hstore, hfinish]
        | some store₂ =>
          rw [hstore] at hfinish
          simp only [Option.isSome_some, true_iff] at hfinish
          obtain ⟨inventory, hstore₂, hinventory⟩ := Attempt.finish_eq_some hstore
          rw [if_pos hfull, hattemptNow] at hstore₂
          simp only [hstore]
          refine ⟨by simp [hrange, hfinish, hfit], fun _ => ?_⟩
          rw [hstore₂]
          exact ⟨(hend rfl).1.sweep _ _ _, hinventory hfull⟩
    · have hnone : update.attempt.finish (store.inventory.generation + 1) store₁ = none := by
        rw [← Option.not_isSome_iff_eq_none, hfinish]
        exact fun hand => hrange hand.1
      cases done with
      | false => simp [hrange]
      | true => simp [hnone, hrange]

/-- **A sequence of updates** is completed if the numbers and all of the torrents fit. -/
theorem Holds.allCompleted_iff (h : Holds codec ids times before store)
    (hsha256 : NoCollisions codec ids times) {updates : List FullUpdate}
    (hlisted : ∀ update ∈ updates, ∀ torrent ∈ update.torrents, Listed ids times torrent)
    (hnow : ∀ update ∈ updates, update.now ∈ times)
    (hgeneration : store.inventory.generation ≤ i64Max) :
    allCompleted codec store updates = true
      ↔ store.inventory.generation + updates.length ≤ i64Max ∧ (∀ update ∈ updates,
        ResponseFits update)
        ∧ AllFit before (updates.flatMap FullUpdate.torrents) := by
  induction updates generalizing store before with
  | nil =>
    have hfit : AllFit before [] := fun earlier torrent later heq => by simp at heq
    simp [allCompleted, hgeneration, hfit]
  | cons update updates ih =>
    obtain ⟨hdone, hend⟩ := h.run_iff hsha256 update (hlisted update List.mem_cons_self)
      (hnow update List.mem_cons_self)
    rw [allCompleted, Bool.and_eq_true, List.flatMap_cons, allFit_append, List.length_cons]
    by_cases hrun : (update.attempt.run codec store).2 = true
    · obtain ⟨hholds, hnext⟩ := hend hrun
      obtain ⟨hrange, hresponse, hfit⟩ := hdone.mp hrun
      rw [ih hholds (fun update hmem => hlisted update (List.mem_cons_of_mem _ hmem))
        (fun update hmem =>
          hnow update (List.mem_cons_of_mem _ hmem)) (by rw [hnext]; exact hrange),
        hnext]
      simp only [hrun, true_and, List.forall_mem_cons, hresponse, hfit]
      rw [Nat.add_assoc, Nat.add_comm 1]
    · simp only [hrun, Bool.false_eq_true, false_and, false_iff]
      rintro ⟨hlength, hresponse, hfit, -⟩
      exact hrun (hdone.mpr ⟨by omega, hresponse update List.mem_cons_self, hfit⟩)

end

/-- The qBittorrent identifiers of the torrents of updates. -/
def listedIds (updates : List FullUpdate) : Set String :=
  {qbitId | ∃ update ∈ updates, ∃ torrent ∈ update.torrents, torrent.hash = qbitId}

/-- The times of updates. -/
def listedTimes (updates : List FullUpdate) : Set ℤ :=
  {time | ∃ update ∈ updates, update.now = time ∨ ∃ torrent ∈ update.torrents,
    torrent.completionOn = time}

theorem holds_empty (codec : QbitCodec) (ids : Set String) (times : Set ℤ) :
    Holds codec ids times [] Store.empty :=
  ⟨⟨[], recording_empty codec _⟩, fun _ => rfl, fun _ =>
    rfl, by simp [Store.empty], by simp [Store.empty]⟩

/-- **Full updates.** A sequence of updates, each of them valid in itself, is projected without an
error if, and only if, its numbers are values of `i64`, and no torrent has, or keeps from an earlier
update, a hash which the row of a torrent with another identifier has from an earlier update. -/
theorem full_updates_succeed_iff (codec : QbitCodec) (updates : List FullUpdate)
    (hvalid : ∀ update ∈ updates, ValidUpdate update)
    (hsha256 : NoCollisions codec (listedIds updates) (listedTimes updates)) :
    allCompleted codec Store.empty updates = true
      ↔ updates.length ≤ i64Max ∧ (∀ update ∈ updates, ResponseFits update)
        ∧ ∀ before torrent after,
          updates.flatMap FullUpdate.torrents = before ++ torrent :: after →
            SizesFit torrent ∧ ¬ Clash before torrent := by
  have hlisted : ∀ update ∈ updates, ∀ torrent ∈ update.torrents,
      Listed (listedIds updates) (listedTimes updates) torrent :=
    fun update hupdate torrent htorrent => ⟨(hvalid update hupdate).torrents torrent htorrent,
      ⟨update, hupdate, torrent, htorrent, rfl⟩, ⟨update, hupdate, .inr ⟨torrent, htorrent, rfl⟩⟩⟩
  have hiff :=
    (holds_empty codec (listedIds updates) (listedTimes updates)).allCompleted_iff hsha256
    hlisted (fun update hupdate => ⟨update, hupdate, .inl rfl⟩) (Nat.zero_le _)
  rw [hiff]
  simp [AllFit, Store.empty]

/-- A torrent with a qBittorrent identifier and a hash. -/
def torrentWith (hash infohashV1 : String) : InventoryTorrent :=
  { downloadingTorrent with hash, infohashV1, completionOn := 10 }

/-- The second update has a torrent with the hash of the torrent of the first, and another
identifier. -/
def renamedUpdates : List FullUpdate :=
  [⟨some 1, [[torrentWith "aaaaaaaaaaaaaaaaaaaaaaaaaaaaaaaaaaaaaaaa"
      "aaaaaaaaaaaaaaaaaaaaaaaaaaaaaaaaaaaaaaaa"]], 10⟩,
    ⟨some 2, [[torrentWith "bbbbbbbbbbbbbbbbbbbbbbbbbbbbbbbbbbbbbbbb"
      "aaaaaaaaaaaaaaaaaaaaaaaaaaaaaaaaaaaaaaaa"]], 10⟩]

/-- An update of one torrent is valid if the torrent is. -/
theorem validUpdate_of_valid {torrent : InventoryTorrent} {responseId : Option ℕ} {now : ℤ}
    (hvalid : validate torrent = .ok ()) (hhash : torrent.infohashV1 ≠ "") :
    ValidUpdate ⟨responseId, [[torrent]], now⟩ := by
  refine ⟨?_, ?_, ?_, ?_⟩ <;> simp [FullUpdate.torrents]
  exact ⟨hvalid, .inl hhash⟩

theorem renamedUpdates_fail :
    (∀ update ∈ renamedUpdates, ValidUpdate update)
      ∧ allCompleted .ascii Store.empty renamedUpdates = false := by
  refine ⟨?_, by decide +kernel⟩
  intro update hmem
  rcases List.mem_pair.mp hmem with rfl | rfl <;>
    exact validUpdate_of_valid (by decide +kernel) (by decide)

/-- Updates of two torrents, each with a hash of its own. -/
def steadyUpdates : List FullUpdate :=
  [⟨some 1, [[torrentWith "aaaaaaaaaaaaaaaaaaaaaaaaaaaaaaaaaaaaaaaa"
      "aaaaaaaaaaaaaaaaaaaaaaaaaaaaaaaaaaaaaaaa"]], 10⟩,
    ⟨none, [[torrentWith "bbbbbbbbbbbbbbbbbbbbbbbbbbbbbbbbbbbbbbbb"
      "bbbbbbbbbbbbbbbbbbbbbbbbbbbbbbbbbbbbbbbb"]], 10⟩]

theorem listedIds_steadyUpdates {qbitId : String} (h : qbitId ∈ listedIds steadyUpdates) :
    qbitId = "aaaaaaaaaaaaaaaaaaaaaaaaaaaaaaaaaaaaaaaa"
      ∨ qbitId = "bbbbbbbbbbbbbbbbbbbbbbbbbbbbbbbbbbbbbbbb" := by
  simp only [listedIds, steadyUpdates, FullUpdate.torrents, Set.mem_ofPred_eq, List.mem_cons,
    List.not_mem_nil, or_false, exists_eq_or_imp, exists_eq_left, List.flatten_cons,
    List.flatten_nil, List.append_nil, torrentWith] at h
  rcases h with rfl | rfl
  · exact .inl rfl
  · exact .inr rfl

theorem listedTimes_steadyUpdates {time : ℤ}
    (h : time ∈ listedTimes steadyUpdates) : time = 10 := by
  simp only [listedTimes, steadyUpdates, FullUpdate.torrents, Set.mem_ofPred_eq, List.mem_cons,
    List.not_mem_nil, or_false, exists_eq_or_imp, exists_eq_left, List.flatten_cons,
    List.flatten_nil, List.append_nil, torrentWith, or_self] at h
  exact h.symm

theorem noCollisions_steadyUpdates :
    NoCollisions .ascii (listedIds steadyUpdates) (listedTimes steadyUpdates) := by
  have hsources : sourceId .ascii "aaaaaaaaaaaaaaaaaaaaaaaaaaaaaaaaaaaaaaaa"
      ≠ sourceId .ascii "bbbbbbbbbbbbbbbbbbbbbbbbbbbbbbbbbbbbbbbb" := by
    decide +kernel
  have hcompletions : ∀ name ∈ ["qbit-completion-operation", "qbit-completion-task",
    "qbit-completion-key"],
      id16 CompletionCodec.serde name
        (sourceId .ascii "aaaaaaaaaaaaaaaaaaaaaaaaaaaaaaaaaaaaaaaa") 10
        ≠ id16 CompletionCodec.serde name
          (sourceId .ascii "bbbbbbbbbbbbbbbbbbbbbbbbbbbbbbbbbbbbbbbb") 10 := by
    decide +kernel
  refine ⟨fun a ha b hb heq => ?_, ?_, fun time htime => ?_⟩
  · rcases listedIds_steadyUpdates ha with rfl | rfl <;>
      rcases listedIds_steadyUpdates hb with rfl | rfl
    · rfl
    · exact absurd heq hsources
    · exact absurd heq.symm hsources
    · rfl
  · rintro name hname _ ⟨⟨source, time⟩, ⟨⟨a, ha, rfl⟩, htime⟩, rfl⟩ _
      ⟨⟨source', time'⟩, ⟨⟨b, hb, rfl⟩, htime'⟩, rfl⟩ heq
    obtain rfl : time = 10 := listedTimes_steadyUpdates htime
    obtain rfl : time' = 10 := listedTimes_steadyUpdates htime'
    rcases listedIds_steadyUpdates ha with rfl | rfl <;>
      rcases listedIds_steadyUpdates hb with rfl | rfl
    · rfl
    · exact absurd heq (hcompletions name hname)
    · exact absurd heq.symm (hcompletions name hname)
    · rfl
  · obtain rfl := listedTimes_steadyUpdates htime
    decide

theorem full_updates_succeed_iff_steady :
    (∀ update ∈ steadyUpdates, ValidUpdate update)
      ∧ NoCollisions .ascii (listedIds steadyUpdates) (listedTimes steadyUpdates)
      ∧ ∀ before torrent after,
        steadyUpdates.flatMap FullUpdate.torrents = before ++ torrent :: after →
          SizesFit torrent ∧ ¬ Clash before torrent := by
  have hvalid : ∀ update ∈ steadyUpdates, ValidUpdate update := by
    intro update hmem
    rcases List.mem_pair.mp hmem with rfl | rfl <;>
      exact validUpdate_of_valid (by decide +kernel) (by decide)
  refine ⟨hvalid, noCollisions_steadyUpdates, ?_⟩
  exact ((full_updates_succeed_iff .ascii steadyUpdates hvalid noCollisions_steadyUpdates).mp
    (by decide +kernel)).2.2

end Sporos.Service.FullUpdates
