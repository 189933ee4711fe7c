import Sporos.Service.QbitProjection

/-! # Full updates of the inventory

The attempts of `qbit_sync.rs` to bring the inventory up to date. An attempt reads the generation,
commits its batches one by one, and ends with `finish_qbit_sync` or `finish_qbit_reconcile`; it may
stop after any batch. A full update has the next generation, which is stored at its end only, so
that an attempt after one that has stopped uses its generation again. -/

namespace Sporos.Service.QbitSync

open Sporos.Service.Tables
open Sporos.Service.Inventory
open Sporos.Service.Sources
open Sporos.Service.Completion
open Sporos.Service.QbitProjection
open Sporos.Lib.Table
open Sporos.Lib.Loop

/-! ### Attempts -/

/-- An attempt: the batches that it commits unless one of them fails, and whether it then comes to
its end. The changes of `sync_once` are those of the main data, and the ones of `reconcile` are
torrents. -/
inductive Attempt where
  | sync (responseId : ℕ) (fullUpdate : Bool) (batches : List (List InventoryChange)) (ends : Bool)
      (now : ℤ)
  | reconcile (batches : List (List InventoryTorrent)) (ends : Bool) (now : ℤ)

/-- The attempt is one to see all torrents. -/
def Attempt.full : Attempt → Bool
  | .sync _ fullUpdate _ _ _ => fullUpdate
  | .reconcile _ _ _ => true

/-- The batches of an attempt. -/
def Attempt.batches : Attempt → List (List InventoryChange)
  | .sync _ _ batches _ _ => batches
  | .reconcile batches _ _ => batches.map (·.map InventoryTorrent.change)

/-- The changes of an attempt. -/
def Attempt.changes (attempt : Attempt) : List InventoryChange := attempt.batches.flatten

/-- When an attempt is made. -/
def Attempt.now : Attempt → ℤ
  | .sync _ _ _ _ now => now
  | .reconcile _ _ now => now

/-- The generation of the attempt. -/
def Attempt.generation (attempt : Attempt) (store : Store) : ℕ :=
  if attempt.full then store.inventory.generation + 1 else store.inventory.generation

/-- The end of the attempt, if it comes to it. -/
def Attempt.finish (generation : ℕ) (store : Store) : Attempt → Option Store
  | .sync responseId fullUpdate _ ends now =>
    if ends then
      (finishQbitSync store responseId (if fullUpdate then some generation else none) now).toOption
    else none
  | .reconcile _ ends now => if ends
    then (finishQbitReconcile store generation now).toOption else none

section

variable (codec : QbitCodec)

/-- The batches, each in a transaction, up to the first that fails. -/
def commitBatches (generation : ℕ) (detectCompletions : Bool) (now : ℤ) :
    Store → List (List InventoryChange) → Store × Bool
  | store, [] => (store, true)
  | store, batch :: batches =>
    match projectQbitBatch codec store batch generation detectCompletions now with
    | .error _ => (store, false)
    | .ok (store, _) => commitBatches generation detectCompletions now store batches

/-- The attempt, and whether it has been completed. The first update must be a full one. -/
def Attempt.run (store : Store) (attempt : Attempt) : Store × Bool :=
  if !attempt.full ∧ store.inventory.baselineAt = none then (store, false)
  else
    let generation := attempt.generation store
    match commitBatches codec generation store.inventory.baselineAt.isSome attempt.now store
      attempt.batches with
    | (store, false) => (store, false)
    | (store, true) =>
      match attempt.finish generation store with
      | none => (store, false)
      | some store => (store, true)

/-- The tables after some attempts. -/
def runAttempts (store : Store) (attempts : List Attempt) : Store :=
  attempts.foldl (fun store attempt => (attempt.run codec store).1) store

end

/-! ### Presence -/

/-- Whether a torrent is available, and the generation that has seen it last. -/
def presence (store : Store) (qbitId : String) : Option (Bool × ℕ) :=
  (store.torrent qbitId).map fun row => (row.available, row.lastSeenGeneration)

/-- What a change does to the presence of a torrent. -/
def seen (generation : ℕ) (qbitId : String) (before : Option (Bool × ℕ)) :
    InventoryChange → Option (Bool × ℕ)
  | .upsert changed _ => if changed = qbitId then some (true, generation) else before
  | .removed changed => if changed = qbitId then before.map fun p => (false, p.2) else before

section

variable {codec : QbitCodec} {store store' : Store} {generation : ℕ}
  {detectCompletions : Bool} {now : ℤ}

/-- **One change.** The torrents are as the presence says; nothing else of the inventory changes. -/
theorem projectChange_presence {batch batch' : ProjectionBatch} {change : InventoryChange}
    (h : projectChange codec generation detectCompletions now (store, batch) change
      = .ok (store', batch')) :
    (UniqueKey TorrentRow.qbitId store.torrents → UniqueKey TorrentRow.qbitId store'.torrents)
      ∧ store'.inventory = store.inventory
      ∧ ∀ qbitId, presence store' qbitId =
        seen generation qbitId (presence store qbitId) change := by
  cases change with
  | upsert changed delta =>
    obtain ⟨⟨store₁, completion, manifestNeeded⟩, hproject, h⟩ := bind_eq_ok.mp h
    obtain ⟨rfl, -⟩ : store₁ = store' ∧ _ := by simpa [pure, Except.pure] using h
    obtain ⟨fields, torrents, -, hupsert, hresult⟩ := projectTorrent_eq_ok hproject
    have hstore : store₁.torrents = torrents ∧ store₁.inventory = store.inventory := by
      rcases hresult with ⟨-, rfl⟩ | ⟨completedAt, accepted, -, haccept⟩
      · exact ⟨rfl, rfl⟩
      · obtain ⟨outbox, completions, inserted, -, -, rfl⟩ := accept_eq_some haccept
        exact ⟨rfl, rfl⟩
    refine ⟨fun hunique => ?_, hstore.2, fun qbitId => ?_⟩
    · rw [hstore.1]
      exact unique_upsertTorrent hupsert hunique
    · rw [presence, Store.torrent, hstore.1, lookup_upsertTorrent hupsert, row_qbitId]
      by_cases heq : qbitId = changed
      · subst heq
        rw [if_pos rfl]
        cases lookup TorrentRow.qbitId store.torrents qbitId <;> simp [seen, updatedRow, Fields.row]
      · rw [if_neg heq, seen, if_neg fun h => heq h.symm]
        rfl
  | removed changed =>
    obtain ⟨rfl, -⟩ : removeTorrent store changed now = store' ∧ _ := by
      simpa [projectChange] using h
    refine ⟨fun hunique => hunique.updateKey (removedRow_qbitId now) changed, rfl, fun qbitId => ?_⟩
    rw [presence, Store.torrent, removeTorrent, lookup_updateKey (removedRow_qbitId now)]
    by_cases heq : qbitId = changed
    · subst heq
      simp only [if_true, seen, presence, Store.torrent, Option.map_map]
      rfl
    · rw [if_neg heq, seen, if_neg fun h => heq h.symm]
      rfl

/-- The store after changes that are related to a store before: with unique torrents, the same state
of the inventory, and the presence that the changes give. -/
structure Projected (generation : ℕ) (changes : List InventoryChange)
    (store store' : Store) : Prop where
  unique : UniqueKey TorrentRow.qbitId store.torrents → UniqueKey TorrentRow.qbitId store'.torrents
  inventory : store'.inventory = store.inventory
  presence : ∀ qbitId,
    presence store' qbitId = changes.foldl (seen generation qbitId) (presence store qbitId)

theorem Projected.refl (generation : ℕ) (store : Store) : Projected generation [] store store :=
  ⟨fun h => h, rfl, fun _ => rfl⟩

theorem Projected.trans {changes changes' : List InventoryChange} {store₁ store₂ store₃ : Store}
    (h : Projected generation changes store₁ store₂)
    (h' : Projected generation changes' store₂ store₃) :
    Projected generation (changes ++ changes') store₁ store₃ :=
  ⟨fun hunique => h'.unique (h.unique hunique), h'.inventory.trans h.inventory, fun qbitId => by
    rw [List.foldl_append, ← h.presence, h'.presence]⟩

/-- **A batch.** -/
theorem projected_projectQbitBatch {changes : List InventoryChange} {batch : ProjectionBatch}
    (h : projectQbitBatch codec store changes generation detectCompletions now =
      .ok (store', batch)) :
    Projected generation changes store store' := by
  unfold projectQbitBatch at h
  obtain ⟨generation', hgeneration, h⟩ := bind_eq_ok.mp h
  obtain ⟨rfl, -⟩ := toI64_eq_ok hgeneration
  have hfold := foldlM_invariant
    (f := projectChange codec generation detectCompletions now)
    (P := fun done result => Projected generation done store result.1)
    (fun done change before after hdone hstep => by
      obtain ⟨hunique, hinventory, hpresence⟩ := projectChange_presence hstep
      exact hdone.trans ⟨hunique, hinventory, hpresence⟩)
    changes [] (store, ⟨0, [], []⟩) (store', batch) (Projected.refl generation store) h
  simpa using hfold

/-- **The batches of an attempt**, if all of them are committed. -/
theorem projected_commitBatches {batches : List (List InventoryChange)}
    (h : commitBatches codec generation detectCompletions now store batches = (store', true)) :
    Projected generation batches.flatten store store' := by
  induction batches generalizing store with
  | nil =>
    obtain rfl : store = store' := by simpa [commitBatches] using h
    exact Projected.refl generation store
  | cons batch batches ih =>
    unfold commitBatches at h
    split at h
    · cases h
    · rename_i store₁ result hbatch
      rw [List.flatten_cons]
      exact (projected_projectQbitBatch hbatch).trans (ih h)

/-- The batches that are committed keep the torrents unique, also if one of them fails. -/
theorem unique_commitBatches {batches : List (List InventoryChange)} {done : Bool}
    (h : commitBatches codec generation detectCompletions now store batches = (store', done))
    (hunique : UniqueKey TorrentRow.qbitId store.torrents) :
    UniqueKey TorrentRow.qbitId store'.torrents := by
  induction batches generalizing store with
  | nil =>
    obtain ⟨rfl, -⟩ : store = store' ∧ _ := by simpa [commitBatches] using h
    exact hunique
  | cons batch batches ih =>
    unfold commitBatches at h
    split at h
    · obtain ⟨rfl, -⟩ : store = store' ∧ _ := by simpa using h
      exact hunique
    · rename_i store₁ result hbatch
      exact ih h ((projected_projectQbitBatch hbatch).unique hunique)

end

/-! ### The end of a full update -/

section

variable {store : Store} {generation : ℕ} {now : ℤ}

/-- What the sweep does to a row. -/
def sweptRow (generation : ℕ) (now : ℤ) (row : TorrentRow) : TorrentRow :=
  if row.available = true ∧ row.lastSeenGeneration ≠ generation then removedRow now row else row

theorem sweptRow_qbitId (generation : ℕ) (now : ℤ) (row : TorrentRow) :
    (sweptRow generation now row).qbitId = row.qbitId := by
  unfold sweptRow
  split <;> rfl

theorem map_qbitId_sweep (store : Store) (generation : ℕ) (now : ℤ) :
    (sweep store generation now).torrents.map TorrentRow.qbitId
      = store.torrents.map TorrentRow.qbitId := by
  rw [sweep, List.map_map]
  exact List.map_congr_left fun row _ => sweptRow_qbitId generation now row

/-- After the sweep, a torrent is available if its generation is that of the sweep. -/
theorem presence_sweep (store : Store) (generation : ℕ) (now : ℤ) (qbitId : String) :
    presence (sweep store generation now) qbitId
      = (presence store qbitId).map fun p => (p.1 && p.2 = generation, p.2) := by
  have hlookup : (sweep store generation now).torrent qbitId
      = (store.torrent qbitId).map (sweptRow generation now) :=
    lookup_map (sweptRow_qbitId generation now) store.torrents qbitId
  rw [presence, hlookup, presence, Option.map_map, Option.map_map]
  refine congrArg (Option.map · _) (funext fun row => ?_)
  simp only [Function.comp, sweptRow, removedRow]
  by_cases havailable : row.available = true <;>
    by_cases hgeneration : row.lastSeenGeneration = generation <;> simp [havailable, hgeneration]

/-- What the end of an attempt does: a full update sweeps the torrents. -/
theorem Attempt.finish_eq_some {attempt : Attempt} {store' : Store}
    (h : attempt.finish generation store = some store') :
    ∃ inventory, store' =
        { (if attempt.full then sweep store generation attempt.now else store) with inventory }
      ∧ (attempt.full = true → inventory.generation = generation) := by
  cases attempt with
  | sync responseId fullUpdate batches ends now =>
    cases ends with
    | false => cases h
    | true =>
      simp only [Attempt.finish, if_true] at h
      cases hfinish : finishQbitSync store responseId (if fullUpdate then some generation else none)
          now with
      | error e =>
        rw [hfinish] at h
        cases h
      | ok store₁ =>
        rw [hfinish] at h
        obtain rfl : store₁ = store' := Option.some_inj.mp h
        obtain ⟨responseId', -, hfinish⟩ := bind_eq_ok.mp hfinish
        cases fullUpdate with
        | true =>
          obtain ⟨generation', hgeneration, hfinish⟩ := bind_eq_ok.mp hfinish
          obtain ⟨rfl, -⟩ := toI64_eq_ok hgeneration
          exact ⟨_, (Except.ok.inj hfinish).symm, fun _ => rfl⟩
        | false => exact ⟨_, (Except.ok.inj hfinish).symm, fun h => by cases h⟩
  | reconcile batches ends now =>
    simp only [Attempt.finish] at h
    split_ifs at h
    cases hfinish : finishQbitReconcile store generation now with
    | error e =>
      rw [hfinish] at h
      cases h
    | ok store₁ =>
      rw [hfinish] at h
      obtain rfl : store₁ = store' := Option.some_inj.mp h
      obtain ⟨generation', hgeneration, hfinish⟩ := bind_eq_ok.mp hfinish
      obtain ⟨rfl, -⟩ := toI64_eq_ok hgeneration
      exact ⟨_, (Except.ok.inj hfinish).symm, fun _ => rfl⟩

/-- A full update that is completed: its changes, and the sweep. -/
theorem Attempt.run_full {codec : QbitCodec} {attempt : Attempt} {store' : Store}
    (hfull : attempt.full = true) (h : attempt.run codec store = (store', true)) :
    ∃ store₁, Projected (store.inventory.generation + 1) attempt.changes store store₁
      ∧ store'.torrents
        = (sweep store₁ (store.inventory.generation + 1) attempt.now).torrents := by
  have hgeneration : attempt.generation store = store.inventory.generation + 1 := by
    rw [Attempt.generation, if_pos hfull]
  unfold Attempt.run at h
  rw [if_neg (by simp [hfull])] at h
  simp only [hgeneration] at h
  split at h
  · cases h
  · rename_i store₁ hcommit
    refine ⟨store₁, projected_commitBatches hcommit, ?_⟩
    split at h
    · cases h
    · rename_i store₂ hfinish
      obtain ⟨inventory, hstore₂, -⟩ := Attempt.finish_eq_some hfinish
      rw [if_pos hfull] at hstore₂
      obtain rfl : store₂ = store' := congrArg Prod.fst h
      rw [hstore₂]

/-- Any attempt keeps the torrents unique. -/
theorem unique_run {codec : QbitCodec} (attempt : Attempt)
    (hunique : UniqueKey TorrentRow.qbitId store.torrents) :
    UniqueKey TorrentRow.qbitId (attempt.run codec store).1.torrents := by
  unfold Attempt.run
  split_ifs
  · exact hunique
  · simp only
    split
    · rename_i store₁ heq
      exact unique_commitBatches heq hunique
    · rename_i store₁ heq
      have hcommit := unique_commitBatches heq hunique
      split
      · exact hcommit
      · rename_i store₂ hfinish
        obtain ⟨inventory, rfl, -⟩ := Attempt.finish_eq_some hfinish
        split
        · rw [UniqueKey, map_qbitId_sweep]
          exact hcommit
        · exact hcommit

theorem unique_runAttempts (codec : QbitCodec) (attempts : List Attempt) :
    UniqueKey TorrentRow.qbitId (runAttempts codec Store.empty attempts).torrents := by
  have hrun : ∀ (attempts : List Attempt) (store : Store),
    UniqueKey TorrentRow.qbitId store.torrents →
      UniqueKey TorrentRow.qbitId (runAttempts codec store attempts).torrents := by
    intro attempts
    induction attempts with
    | nil => exact fun store h => h
    | cons attempt attempts ih => exact fun store h => ih _ (unique_run attempt h)
  exact hrun attempts Store.empty (by simp [Store.empty, UniqueKey])

end

/-! ### The last change of a torrent -/

/-- The torrent that a change is about. -/
def changedId : InventoryChange → String
  | .upsert qbitId _ => qbitId
  | .removed qbitId => qbitId

/-- Some change upserts the torrent. -/
def Upserts (changes : List InventoryChange) (qbitId : String) : Prop :=
  ∃ delta, InventoryChange.upsert qbitId delta ∈ changes

/-- Some change is of the torrent. -/
def Mentions (changes : List InventoryChange) (qbitId : String) : Prop :=
  ∃ change ∈ changes, changedId change = qbitId

/-- A change upserts the torrent, and a later one removes it. -/
def RemovesAgain (changes : List InventoryChange) (qbitId : String) : Prop :=
  Upserts changes qbitId
    ∧ (changes.filter fun change => changedId change = qbitId).getLast? = some (.removed qbitId)

theorem foldl_seen_of_not_mentions {generation : ℕ} {qbitId : String}
    {changes : List InventoryChange} (h : ¬ Mentions changes qbitId) (before : Option (Bool × ℕ)) :
    changes.foldl (seen generation qbitId) before = before := by
  induction changes using List.reverseRecOn with
  | nil => rfl
  | append_singleton changes change ih =>
    rw [List.foldl_append, ih fun ⟨c, hc, hid⟩ => h ⟨c, by simp [hc], hid⟩]
    have hne : changedId change ≠ qbitId := fun hid => h ⟨change, by simp, hid⟩
    cases change <;> simp_all [seen, changedId]

theorem upserts_concat {changes : List InventoryChange} {change : InventoryChange}
    {qbitId : String} :
    Upserts (changes ++ [change]) qbitId
      ↔ Upserts changes qbitId ∨ ∃ delta, change = .upsert qbitId delta := by
  simp only [Upserts, List.mem_append, List.mem_singleton]
  constructor
  · rintro ⟨delta, h | h⟩
    · exact .inl ⟨delta, h⟩
    · exact .inr ⟨delta, h.symm⟩
  · rintro (⟨delta, h⟩ | ⟨delta, h⟩)
    · exact ⟨delta, .inl h⟩
    · exact ⟨delta, .inr h.symm⟩

theorem Upserts.mentions {changes : List InventoryChange} {qbitId : String}
    (h : Upserts changes qbitId) : Mentions changes qbitId :=
  let ⟨delta, hmem⟩ := h
  ⟨.upsert qbitId delta, hmem, rfl⟩

/-- A change of another torrent adds nothing to what the changes say of a torrent. -/
theorem concat_of_ne (changes : List InventoryChange) {change : InventoryChange} {qbitId : String}
    (hne : changedId change ≠ qbitId) :
    (Upserts (changes ++ [change]) qbitId ↔ Upserts changes qbitId)
      ∧ (Mentions (changes ++ [change]) qbitId ↔ Mentions changes qbitId)
      ∧ (RemovesAgain (changes ++ [change]) qbitId ↔ RemovesAgain changes qbitId) := by
  have hupserts : Upserts (changes ++ [change]) qbitId ↔ Upserts changes qbitId := by
    rw [upserts_concat, or_iff_left]
    rintro ⟨delta, rfl⟩
    exact hne rfl
  refine ⟨hupserts, ?_, ?_⟩
  · simp [Mentions, or_and_right, exists_or, hne]
  · rw [RemovesAgain, RemovesAgain, hupserts, List.filter_append,
      List.filter_cons_of_neg (by simpa using hne), List.filter_nil, List.append_nil]

/-- The last change of a torrent decides whether the changes remove it again. -/
theorem removesAgain_concat {changes : List InventoryChange} {change : InventoryChange}
    (qbitId : String) (heq : changedId change = qbitId) :
    RemovesAgain (changes ++ [change]) qbitId ↔ Upserts changes qbitId
      ∧ change = .removed qbitId := by
  rw [RemovesAgain, upserts_concat, List.filter_append,
    List.filter_cons_of_pos (by simpa using heq), List.filter_nil,
    List.getLast?_concat, Option.some_inj]
  constructor
  · rintro ⟨h | ⟨delta, rfl⟩, hremoved⟩
    · exact ⟨h, hremoved⟩
    · cases hremoved
  · rintro ⟨h, hremoved⟩
    exact ⟨.inl h, hremoved⟩

/-- A torrent that changes mention is available if some change upserts it and none removes it later,
and it then has the generation of the changes. -/
theorem foldl_seen_of_mentions (generation : ℕ) {qbitId : String} {changes : List InventoryChange}
    (h : Mentions changes qbitId) (before : Option (Bool × ℕ)) :
    (Upserts changes qbitId → (changes.foldl (seen generation qbitId) before).isSome = true)
      ∧ ∀ p, changes.foldl (seen generation qbitId) before = some p →
        (p.1 = true ↔ Upserts changes qbitId ∧ ¬ RemovesAgain changes qbitId)
          ∧ (p.1 = true → p.2 = generation) := by
  induction changes using List.reverseRecOn with
  | nil =>
    obtain ⟨change, hmem, -⟩ := h
    cases hmem
  | append_singleton changes change ih =>
    rw [List.foldl_append]
    simp only [List.foldl_cons, List.foldl_nil]
    by_cases heq : changedId change = qbitId
    · rw [removesAgain_concat qbitId heq, upserts_concat]
      cases change with
      | upsert changed delta =>
        obtain rfl : changed = qbitId := heq
        simp [seen]
      | removed changed =>
        obtain rfl : changed = qbitId := heq
        simp only [seen, if_true, Option.isSome_map, reduceCtorEq, exists_false, or_false, and_true]
        refine ⟨fun hupserts => (ih hupserts.mentions).1 hupserts, fun p hp => ?_⟩
        obtain ⟨p', -, rfl⟩ := Option.map_eq_some_iff.mp hp
        simp
    · obtain ⟨hupserts, hmentions, hremoves⟩ := concat_of_ne changes heq
      have hseen : ∀ before, seen generation qbitId before change = before := by
        intro before
        cases change <;> exact if_neg heq
      rw [hupserts, hremoves, hseen]
      exact ih (hmentions.mp h)

/-! ### Which torrents a full update leaves available -/

/-- The store has an available row of the torrent. -/
def Available (store : Store) (qbitId : String) : Prop :=
  ∃ row ∈ store.torrents, row.qbitId = qbitId ∧ row.available = true

theorem available_iff_presence {store : Store}
    (hunique : UniqueKey TorrentRow.qbitId store.torrents) (qbitId : String) :
      Available store qbitId ↔ ∃ p, presence store qbitId = some p ∧ p.1 = true := by
  unfold presence Store.torrent
  constructor
  · rintro ⟨row, hmem, rfl, havailable⟩
    rw [UniqueKey.lookup_of_mem hunique hmem rfl]
    exact ⟨_, rfl, havailable⟩
  · rintro ⟨p, hp, havailable⟩
    obtain ⟨row, hrow, rfl⟩ := Option.map_eq_some_iff.mp hp
    obtain ⟨hmem, hid⟩ := lookup_eq_some_mem hrow
    exact ⟨row, hmem, hid, havailable⟩

/-- The row of a torrent that is available with a generation. -/
theorem available_with_iff_presence {store : Store} {generation : ℕ}
    (hunique : UniqueKey TorrentRow.qbitId store.torrents) (qbitId : String) :
    (∃ row ∈ store.torrents, row.qbitId = qbitId ∧ row.available = true
        ∧ row.lastSeenGeneration = generation)
      ↔ presence store qbitId = some (true, generation) := by
  unfold presence Store.torrent
  constructor
  · rintro ⟨row, hmem, rfl, havailable, rfl⟩
    rw [UniqueKey.lookup_of_mem hunique hmem rfl, Option.map_some, havailable]
  · intro h
    obtain ⟨row, hrow, hvalue⟩ := Option.map_eq_some_iff.mp h
    obtain ⟨hmem, hid⟩ := lookup_eq_some_mem hrow
    obtain ⟨havailable, hgeneration⟩ := Prod.mk.inj hvalue
    exact ⟨row, hmem, hid, havailable, hgeneration⟩

/-- **What a completed full update leaves available**: the torrents that it upserts and does not
remove again, and those that it does not mention which had its generation before. -/
theorem available_run_full {codec : QbitCodec} {store store' : Store} {attempt : Attempt}
    (hunique : UniqueKey TorrentRow.qbitId store.torrents) (hfull : attempt.full = true)
    (h : attempt.run codec store = (store', true)) (qbitId : String) :
    Available store' qbitId
      ↔ (Upserts attempt.changes qbitId ∧ ¬ RemovesAgain attempt.changes qbitId)
        ∨ (¬ Mentions attempt.changes qbitId
          ∧ presence store qbitId = some (true, store.inventory.generation + 1)) := by
  obtain ⟨store₁, hprojected, htorrents⟩ := Attempt.run_full hfull h
  have hpresence : presence store' qbitId
      = (presence store₁ qbitId).map fun p =>
        (p.1 && p.2 = store.inventory.generation + 1, p.2) := by
    rw [← presence_sweep store₁ _ attempt.now, presence, presence, Store.torrent, Store.torrent,
      htorrents]
  have hunique' : UniqueKey TorrentRow.qbitId store'.torrents := by
    rw [htorrents, UniqueKey, map_qbitId_sweep]
    exact hprojected.unique hunique
  have hswept : Available store' qbitId
      ↔ ∃ p, presence store₁ qbitId = some p ∧ p.1 = true
        ∧ p.2 = store.inventory.generation + 1 := by
    rw [available_iff_presence hunique', hpresence]
    constructor
    · rintro ⟨p, hp, havailable⟩
      obtain ⟨p', hp', rfl⟩ := Option.map_eq_some_iff.mp hp
      exact ⟨p', hp', by simpa using havailable⟩
    · rintro ⟨p, hp, havailable⟩
      exact ⟨_, by rw [hp]; rfl, by simpa using havailable⟩
  rw [hswept, hprojected.presence qbitId]
  by_cases hmentions : Mentions attempt.changes qbitId
  · obtain ⟨hsome, hlast⟩ := foldl_seen_of_mentions (store.inventory.generation + 1) hmentions
      (presence store qbitId)
    simp only [hmentions, not_true_eq_false, false_and, or_false]
    constructor
    · rintro ⟨p, hp, havailable, -⟩
      exact (hlast p hp).1.mp havailable
    · rintro ⟨hupserts, hremoves⟩
      obtain ⟨p, hp⟩ := Option.isSome_iff_exists.mp (hsome hupserts)
      have havailable := (hlast p hp).1.mpr ⟨hupserts, hremoves⟩
      exact ⟨p, hp, havailable, (hlast p hp).2 havailable⟩
  · rw [foldl_seen_of_not_mentions hmentions]
    have hupserts : ¬ Upserts attempt.changes qbitId := fun h => hmentions h.mentions
    simp only [hupserts, hmentions, not_false_eq_true, false_and, false_or, true_and]
    constructor
    · rintro ⟨⟨available, generation⟩, hp, rfl, rfl⟩
      exact hp
    · exact fun hp => ⟨_, hp, rfl, rfl⟩

/-- **Full updates.** After any history of attempts, a completed full update leaves exactly the
torrents available that it upserts if, and only if, it removes none of those again, and it mentions
each torrent that an earlier attempt, which was not completed, has left available with the same
generation. -/
theorem full_update_exact (codec : QbitCodec) (history : List Attempt)
    (attempt : Attempt) (store' : Store) (hfull : attempt.full = true)
    (hrun : attempt.run codec (runAttempts codec Store.empty history) = (store', true)) :
    (∀ qbitId, Available store' qbitId ↔ Upserts attempt.changes qbitId)
      ↔ (∀ qbitId, ¬ RemovesAgain attempt.changes qbitId)
        ∧ ∀ row ∈ (runAttempts codec Store.empty history).torrents, row.available = true →
          row.lastSeenGeneration
            = (runAttempts codec Store.empty history).inventory.generation + 1 →
          Mentions attempt.changes row.qbitId := by
  have hunique := unique_runAttempts codec history
  have havailable := available_run_full hunique hfull hrun
  constructor
  · intro hexact
    constructor
    · intro qbitId hremoves
      rcases (havailable qbitId).mp ((hexact qbitId).mpr hremoves.1) with ⟨-, h⟩ | ⟨h, -⟩
      · exact h hremoves
      · exact h hremoves.1.mentions
    · intro row hmem hrow hgeneration
      by_contra hmentions
      refine hmentions (Upserts.mentions ((hexact row.qbitId).mp ((havailable row.qbitId).mpr ?_)))
      refine .inr ⟨hmentions, ?_⟩
      rw [presence, Store.torrent, UniqueKey.lookup_of_mem hunique hmem rfl, Option.map_some,
        hrow, hgeneration]
  · rintro ⟨hremoves, hmentioned⟩ qbitId
    rw [havailable qbitId]
    constructor
    · rintro (⟨hupserts, -⟩ | ⟨hmentions, hpresence⟩)
      · exact hupserts
      · obtain ⟨row, hrow, hvalue⟩ := Option.map_eq_some_iff.mp hpresence
        obtain ⟨hmem, rfl⟩ := lookup_eq_some_mem hrow
        obtain ⟨hrowAvailable, hgeneration⟩ := Prod.mk.inj hvalue
        exact absurd (hmentioned row hmem hrowAvailable hgeneration) hmentions
    · exact fun hupserts => .inl ⟨hupserts, hremoves qbitId⟩

/-- A torrent that is not complete. -/
def downloadingTorrent : InventoryTorrent where
  hash := "aaaaaaaaaaaaaaaaaaaaaaaaaaaaaaaaaaaaaaaa"
  infohashV1 := "aaaaaaaaaaaaaaaaaaaaaaaaaaaaaaaaaaaaaaaa"
  infohashV2 := ""
  name := "Film.2020"
  totalSize := 100
  amountLeft := 50
  progress := 1 / 2
  state := "downloading"
  savePath := "/data"
  contentPath := "/data/Film.2020"
  category := ""
  tags := ""
  addedOn := 5
  completionOn := -1

/-- The first full update lists the torrent, commits it, and stops before its end. -/
def abortedUpdate : Attempt := .sync 1 true [[downloadingTorrent.change]] false 10

/-- The next full update, which lists no torrent and comes to its end. -/
def emptyUpdate : Attempt := .sync 1 true [] true 20

theorem abortedUpdate_survives :
    emptyUpdate.full = true
      ∧ (emptyUpdate.run .ascii (runAttempts .ascii Store.empty [abortedUpdate])).2 = true
      ∧ Available (emptyUpdate.run .ascii (runAttempts .ascii Store.empty [abortedUpdate])).1
        downloadingTorrent.hash
      ∧ ¬ Upserts emptyUpdate.changes downloadingTorrent.hash := by
  refine ⟨rfl, by decide +kernel, ?_, ?_⟩
  · unfold Available
    decide +kernel
  · rintro ⟨delta, hmem⟩
    cases hmem

/-- The update that lists the torrent again, after the one that has stopped. -/
theorem full_update_exact_listed :
    let attempt := Attempt.sync 1 true [[downloadingTorrent.change]] true 20
    attempt.full = true
      ∧ (attempt.run .ascii (runAttempts .ascii Store.empty [abortedUpdate])).2 = true
      ∧ ∀ qbitId,
        Available (attempt.run .ascii (runAttempts .ascii Store.empty [abortedUpdate])).1 qbitId
          ↔ Upserts attempt.changes qbitId := by
  intro attempt
  have hdone : (attempt.run .ascii (runAttempts .ascii Store.empty [abortedUpdate])).2 = true := by
    decide +kernel
  refine ⟨rfl, hdone,
    (full_update_exact .ascii [abortedUpdate] attempt _ rfl (Prod.ext rfl hdone)).mpr
    ⟨?_, ?_⟩⟩
  · rintro qbitId ⟨-, hlast⟩
    by_cases heq : downloadingTorrent.hash = qbitId
    · subst heq
      revert hlast
      decide +kernel
    · simp [attempt, Attempt.changes, Attempt.batches, InventoryTorrent.change,
        changedId, heq] at hlast
  · unfold Mentions
    decide +kernel

end Sporos.Service.QbitSync
