import Sporos.Lib.Overlay
import Sporos.Vendor.ProviderTurns

/-! # The values of an instance

The values that an orchestration sets are kept in two tables: `kv_store` has those of the executions
that have ended, `kv_delta` the changes of the current one, with a tombstone for what it has
cleared. What a client reads through both is one map, changed by each event of each turn that is
committed; what a turn is given to start from is that map at the end of the last execution. -/

namespace Sporos.Vendor.Provider

open Sporos.Lib.Frames
open Sporos.Lib.Loop
open Sporos.Lib.Overlay
open Sporos.Lib.Table

/-- What an event does to the values. -/
def changeOf (event : Event) : Option (Change String String) :=
  match event.kind with
  | .keyValueSet key value _ => some (.set key value)
  | .keyValueCleared key => some (.clear key)
  | .keyValuesCleared => some .clearAll
  | _ => none

/-- The values after the events. -/
def replay (events : List Event) (values : String → Option String) : String → Option String :=
  (events.filterMap changeOf).foldl Change.apply values

theorem replay_append (events events' : List Event) (values : String → Option String) :
    replay (events ++ events') values = replay events' (replay events values) := by
  rw [replay, List.filterMap_append, List.foldl_append]
  rfl

/-- The changes of the current execution of an instance. -/
def changesOf (kvDelta : List KvDeltaRow) (instanceId key : String) : Option (Option String) :=
  (lookup KvDeltaRow.id kvDelta (instanceId, key)).map KvDeltaRow.value

/-- The values of an instance at the end of its last execution. -/
def baseOf (kvStore : List KvRow) (instanceId key : String) : Option String :=
  (lookup KvRow.id kvStore (instanceId, key)).map KvRow.value

theorem getKvValue_eq (s : Store) (instanceId : String) :
    getKvValue s instanceId =
      overlay (changesOf s.kvDelta instanceId) (baseOf s.kvStore instanceId) := by
  funext key
  unfold getKvValue overlay changesOf baseOf
  cases lookup KvDeltaRow.id s.kvDelta (instanceId, key) <;> rfl

theorem changesOf_congr {kvDelta kvDelta' : List KvDeltaRow} {instanceId : String}
    (h : (kvDelta.filter fun row => row.instanceId = instanceId) = kvDelta'.filter fun row =>
      row.instanceId = instanceId) :
    changesOf kvDelta instanceId = changesOf kvDelta' instanceId := by
  funext key
  have hmine : ∀ table : List KvDeltaRow, lookup KvDeltaRow.id (table.filter fun row =>
    row.instanceId = instanceId)
      (instanceId, key) = lookup KvDeltaRow.id table (instanceId, key) := fun table =>
    lookup_filter_of_pos fun row _ hkey => decide_eq_true (congrArg Prod.fst hkey)
  rw [changesOf, changesOf, ← hmine kvDelta, ← hmine kvDelta', h]

theorem baseOf_congr {kvStore kvStore' : List KvRow} {instanceId : String}
    (h : (kvStore.filter fun row => row.instanceId = instanceId) = kvStore'.filter fun row =>
      row.instanceId = instanceId) :
    baseOf kvStore instanceId = baseOf kvStore' instanceId := by
  funext key
  have hmine : ∀ table : List KvRow, lookup KvRow.id (table.filter fun row =>
    row.instanceId = instanceId)
      (instanceId, key) = lookup KvRow.id table (instanceId, key) := fun table =>
    lookup_filter_of_pos fun row _ hkey => decide_eq_true (congrArg Prod.fst hkey)
  rw [baseOf, baseOf, ← hmine kvStore, ← hmine kvStore', h]

/-! ### Events -/

section

variable {instanceId : String} {cleared : ℕ → ℤ} {kvStore : List KvRow}
  {kvDelta : List KvDeltaRow} {event : Event} {n : ℕ}

theorem changesOf_upsert {new : KvDeltaRow} {f : KvDeltaRow → KvDeltaRow}
    (hf : ∀ row, (f row).id = row.id) (hvalue : ∀ row, (f row).value = new.value)
    (hnew : new.instanceId = instanceId) :
    changesOf (upsert KvDeltaRow.id kvDelta new f) instanceId =
      Function.update (changesOf kvDelta instanceId) new.key (some new.value) := by
  funext key
  have hkey : (instanceId, key) = new.id ↔ key = new.key := by
    rw [KvDeltaRow.id, hnew, Prod.mk.injEq]
    exact ⟨fun h => h.2, fun h => ⟨rfl, h⟩⟩
  rw [changesOf, lookup_upsert hf]
  by_cases hsame : key = new.key
  · rw [if_pos (hkey.mpr hsame), hsame, Function.update_self]
    cases lookup KvDeltaRow.id kvDelta (instanceId, new.key) with
    | none => rfl
    | some row => exact congrArg some (hvalue row)
  · rw [if_neg fun h => hsame (hkey.mp h), Function.update_of_ne hsame, changesOf]

/-- A row of `kv_store` as a tombstone. -/
def tombstone (instanceId : String) (at' : ℤ) (row : KvRow) : KvDeltaRow :=
  ⟨instanceId, row.key, none, at'⟩

theorem lookup_tombstones (at' : ℤ) (key : String) : ∀ kvStore : List KvRow,
    (lookup KvDeltaRow.id ((kvStore.filter fun row =>
      row.instanceId = instanceId).map (tombstone instanceId at'))
      (instanceId, key)).map KvDeltaRow.value = (baseOf kvStore instanceId key).map fun _ => none
  | [] => rfl
  | row :: kvStore => by
    have ih := lookup_tombstones at' key kvStore
    by_cases hmine : row.instanceId = instanceId
    · rw [List.filter_cons_of_pos (by simpa using hmine), List.map_cons]
      by_cases hkey : row.key = key
      · simp [lookup, baseOf, KvDeltaRow.id, KvRow.id, tombstone, hmine, hkey]
      · rw [baseOf] at ih ⊢
        have htomb : lookup KvDeltaRow.id (tombstone instanceId at' row
            :: (kvStore.filter fun row =>
            row.instanceId = instanceId).map (tombstone instanceId at')) (instanceId, key) =
            lookup KvDeltaRow.id ((kvStore.filter fun row => row.instanceId = instanceId).map
              (tombstone instanceId at')) (instanceId, key) := by
          simp [lookup, KvDeltaRow.id, tombstone, hkey]
        have hrow : lookup KvRow.id (row :: kvStore) (instanceId, key) =
            lookup KvRow.id kvStore (instanceId, key) := by
          simp [lookup, KvRow.id, hkey]
        rw [htomb, hrow, ih]
    · rw [List.filter_cons_of_neg (by simpa using hmine), ih, baseOf, baseOf]
      have hrow : lookup KvRow.id (row :: kvStore) (instanceId, key) =
          lookup KvRow.id kvStore (instanceId, key) := by
        simp [lookup, KvRow.id, hmine]
      rw [hrow]

/-- An event is recorded in the changes. -/
theorem records_materialize {change : Change String String} (h : changeOf event = some change) :
    Records (baseOf kvStore instanceId) (changesOf kvDelta instanceId)
      (changesOf (materialize instanceId cleared kvStore kvDelta (event,
        n)) instanceId) change := by
  unfold materialize
  unfold changeOf at h
  cases hkind : event.kind <;> rw [hkind] at h <;> cases h
  case keyValueSet key value lastUpdatedAtMs =>
    exact .set key value (changesOf_upsert (fun row => rfl) (fun row => rfl) rfl)
  case keyValueCleared key =>
    exact .clear key (changesOf_upsert (fun row => rfl) (fun row => rfl) rfl)
  case keyValuesCleared =>
    refine .clearAll fun key => ?_
    dsimp only
    rw [changesOf, lookup_foldl_insertOrIgnore]
    have hold : lookup KvDeltaRow.id (updateKey KvDeltaRow.instanceId kvDelta instanceId fun row =>
        { row with value := none, lastUpdatedAtMs := cleared n }) (instanceId, key) =
        (lookup KvDeltaRow.id kvDelta (instanceId, key)).map fun row =>
          if row.instanceId = instanceId
            then { row with value := none, lastUpdatedAtMs := cleared n } else row := by
      refine lookup_map (fun row => ?_) kvDelta (instanceId, key)
      split_ifs <;> rfl
    have hnew : (lookup KvDeltaRow.id ((kvStore.filter fun row => row.instanceId = instanceId).map
        (tombstone instanceId (cleared n))) (instanceId, key)).map KvDeltaRow.value =
        (baseOf kvStore instanceId key).map fun _ => none :=
          lookup_tombstones (cleared n) key kvStore
    rw [hold, changesOf]
    cases hlookup : lookup KvDeltaRow.id kvDelta (instanceId, key) with
    | some row =>
      have hmine : row.instanceId = instanceId := congrArg Prod.fst (lookup_eq_some_mem hlookup).2
      simp [hmine]
    | none =>
      change (lookup KvDeltaRow.id ((kvStore.filter fun row => row.instanceId = instanceId).map
        (tombstone instanceId (cleared n))) (instanceId, key)).map KvDeltaRow.value = _
      rw [hnew]
      cases hbase : baseOf kvStore instanceId key <;> simp

theorem materialize_of_none (h : changeOf event = none) :
    materialize instanceId cleared kvStore kvDelta (event, n) = kvDelta := by
  unfold materialize
  unfold changeOf at h
  cases hkind : event.kind <;> rw [hkind] at h <;> first | rfl | cases h

theorem unique_materialize (hu : UniqueKey KvDeltaRow.id kvDelta) (event : Event × ℕ) :
    UniqueKey KvDeltaRow.id (materialize instanceId cleared kvStore kvDelta event) := by
  unfold materialize
  cases event.1.kind with
  | keyValueSet key value lastUpdatedAtMs =>
    refine hu.upsert ?_ _
    intro row
    rfl
  | keyValueCleared key =>
    refine hu.upsert ?_ _
    intro row
    rfl
  | keyValuesCleared =>
    have hold : UniqueKey KvDeltaRow.id (updateKey KvDeltaRow.instanceId kvDelta
        instanceId fun row =>
        { row with value := none, lastUpdatedAtMs := cleared event.2 }) := by
      refine UniqueKey.of_map_eq (map_updateKey ?_ instanceId) hu
      intro row
      rfl
    dsimp only
    generalize updateKey KvDeltaRow.instanceId kvDelta instanceId _ = table at hold
    generalize (kvStore.filter fun row => row.instanceId = instanceId).map _ = news
    induction news generalizing table with
    | nil => exact hold
    | cons new news ih => exact ih _ (hold.insertOrIgnore new)
  | _ => exact hu

/-- The changes of another instance are left alone. -/
theorem filter_materialize {other : String} (hne : other ≠ instanceId) (event : Event × ℕ) :
    ((materialize instanceId cleared kvStore kvDelta event).filter fun row =>
      row.instanceId = other) =
      kvDelta.filter fun row => row.instanceId = other := by
  have hother : ∀ row : KvDeltaRow, row.instanceId = instanceId →
      decide (row.instanceId = other) = false := by
    intro row hrow
    rw [hrow]
    exact decide_eq_false hne.symm
  unfold materialize
  cases event.1.kind with
  | keyValueSet key value lastUpdatedAtMs =>
    refine filter_upsert (hother _ rfl) fun row _ hkey => ?_
    have hrow : row.instanceId = instanceId := congrArg Prod.fst hkey
    exact ⟨hother row hrow, hother _ hrow⟩
  | keyValueCleared key =>
    refine filter_upsert (hother _ rfl) fun row _ hkey => ?_
    have hrow : row.instanceId = instanceId := congrArg Prod.fst hkey
    exact ⟨hother row hrow, hother _ hrow⟩
  | keyValuesCleared =>
    dsimp only
    refine (foldl_frame (List.filter fun row : KvDeltaRow => row.instanceId = other)
      fun new hnew table => ?_).trans
      (filter_updateKey fun row _ hrow => ⟨hother row hrow, hother _ hrow⟩)
    obtain ⟨row, -, rfl⟩ := List.mem_map.mp hnew
    exact filter_insertOrIgnore (hother _ rfl)
  | _ => rfl

end

section

variable {instanceId : String} {cleared : ℕ → ℤ} {kvStore : List KvRow}

theorem overlay_foldl_materialize : ∀ (events : List Event) (n : ℕ) (kvDelta : List KvDeltaRow),
    overlay (changesOf ((events.zipIdx n).foldl (materialize instanceId cleared kvStore)
      kvDelta) instanceId)
        (baseOf kvStore instanceId) =
      replay events (overlay (changesOf kvDelta instanceId) (baseOf kvStore instanceId))
  | [], _, _ => rfl
  | event :: events, n, kvDelta => by
    rw [List.zipIdx_cons, List.foldl_cons, overlay_foldl_materialize events (n + 1)]
    unfold replay
    cases hchange : changeOf event with
    | none =>
      rw [materialize_of_none hchange, List.filterMap_cons_none hchange]
    | some change =>
      rw [overlay_of_records (records_materialize hchange),
        List.filterMap_cons_some hchange, List.foldl_cons]

/-- The events of a turn are replayed on what is read. -/
theorem overlay_materializeAll (cleared : ℕ → ℤ) (events : List Event) (kvDelta : List KvDeltaRow) :
    overlay (changesOf (materializeAll instanceId cleared events kvStore kvDelta) instanceId)
        (baseOf kvStore instanceId) =
      replay events (overlay (changesOf kvDelta instanceId) (baseOf kvStore instanceId)) :=
  overlay_foldl_materialize events 0 kvDelta

theorem unique_materializeAll (events : List Event) {kvDelta : List KvDeltaRow}
    (hu : UniqueKey KvDeltaRow.id kvDelta) :
    UniqueKey KvDeltaRow.id (materializeAll instanceId cleared events kvStore kvDelta) := by
  unfold materializeAll
  generalize events.zipIdx = numbered
  induction numbered generalizing kvDelta with
  | nil => exact hu
  | cons event numbered ih => exact ih (unique_materialize hu event)

theorem filter_materializeAll {other : String} (hne : other ≠ instanceId) (events : List Event)
    (kvDelta : List KvDeltaRow) :
    ((materializeAll instanceId cleared events kvStore kvDelta).filter fun row =>
      row.instanceId = other) =
      kvDelta.filter fun row => row.instanceId = other :=
  foldl_frame (List.filter fun row : KvDeltaRow => row.instanceId = other) fun event _ _ =>
    filter_materialize hne event

end

/-! ### The end of an execution -/

section

variable {instanceId : String} {kvStore : List KvRow}

theorem live_eq_some {row : KvDeltaRow} {new : KvRow} (h : row.live instanceId = some new) :
    row.instanceId = instanceId ∧ new.id = row.id ∧ row.value = some new.value := by
  unfold KvDeltaRow.live at h
  split_ifs at h with hmine
  obtain ⟨value, hvalue, rfl⟩ := Option.map_eq_some_iff.mp h
  exact ⟨hmine, rfl, hvalue⟩

theorem sublist_live : ∀ kvDelta : List KvDeltaRow,
    ((kvDelta.filterMap (KvDeltaRow.live instanceId)).map KvRow.id).Sublist
      (kvDelta.map KvDeltaRow.id)
  | [] => .slnil
  | row :: kvDelta => by
    cases hlive : row.live instanceId with
    | none =>
      rw [List.filterMap_cons_none hlive]
      exact (sublist_live kvDelta).cons _
    | some new =>
      rw [List.filterMap_cons_some hlive, List.map_cons, List.map_cons, (live_eq_some hlive).2.1]
      exact (sublist_live kvDelta).cons_cons _

/-- The changes that are no tombstones. -/
theorem baseOf_live (key : String) : ∀ {kvDelta : List KvDeltaRow},
    UniqueKey KvDeltaRow.id kvDelta →
    baseOf (kvDelta.filterMap (KvDeltaRow.live instanceId)) instanceId key =
      (changesOf kvDelta instanceId key).join
  | [], _ => rfl
  | row :: kvDelta, hu => by
    obtain ⟨hfirst, hu⟩ := List.nodup_cons.mp hu
    have ih := baseOf_live key hu
    by_cases hid : row.id = (instanceId, key)
    · -- No other change has the key.
      have hnone : changesOf kvDelta instanceId key = none := by
        rw [changesOf, lookup_eq_none.mpr fun other hother hkey =>
          hfirst (List.mem_map.mpr ⟨other, hother, hkey.trans hid.symm⟩)]
        rfl
      have hmine : row.instanceId = instanceId := congrArg Prod.fst hid
      have hrow : changesOf (row :: kvDelta) instanceId key = some row.value := by
        simp [changesOf, lookup, hid]
      rw [hrow, Option.join_some]
      cases hvalue : row.value with
      | none =>
        have hlive : row.live instanceId = none := by simp [KvDeltaRow.live, hvalue]
        rw [List.filterMap_cons_none hlive, ih, hnone]
        rfl
      | some value =>
        have hlive : row.live instanceId = some ⟨row.instanceId, row.key, value,
            row.lastUpdatedAtMs⟩ := by
          simp [KvDeltaRow.live, hmine, hvalue]
        have hnew : KvRow.id ⟨row.instanceId, row.key, value, row.lastUpdatedAtMs⟩ =
          (instanceId, key) := hid
        rw [List.filterMap_cons_some hlive, baseOf, lookup,
          List.find?_cons_of_pos (by simpa using hnew)]
        rfl
    · have hrow : changesOf (row :: kvDelta) instanceId key = changesOf kvDelta instanceId key := by
        simp [changesOf, lookup, hid]
      rw [hrow, ← ih]
      cases hlive : row.live instanceId with
      | none => rw [List.filterMap_cons_none hlive]
      | some new =>
        have hnew : new.id ≠ (instanceId, key) := by
          rw [(live_eq_some hlive).2.1]
          exact hid
        rw [List.filterMap_cons_some hlive, baseOf, lookup,
          List.find?_cons_of_neg (by simpa using hnew)]
        rfl

/-- The tombstones of the instance. -/
theorem mem_cleared_iff {key : String} {kvDelta : List KvDeltaRow}
    (hu : UniqueKey KvDeltaRow.id kvDelta) :
    key ∈ (kvDelta.filter fun row => row.instanceId = instanceId
      ∧ row.value = none).map KvDeltaRow.key ↔
      changesOf kvDelta instanceId key = some none := by
  rw [List.mem_map]
  constructor
  · rintro ⟨row, hrow, rfl⟩
    obtain ⟨hmem, hrow⟩ := List.mem_filter.mp hrow
    obtain ⟨rfl, hvalue⟩ := of_decide_eq_true hrow
    have hlookup : lookup KvDeltaRow.id kvDelta (row.instanceId, row.key) = some row :=
      hu.lookup_of_mem hmem rfl
    rw [changesOf, hlookup, Option.map_some, hvalue]
  · intro h
    obtain ⟨row, hrow, hvalue⟩ := Option.map_eq_some_iff.mp h
    obtain ⟨hmem, hid⟩ := lookup_eq_some_mem hrow
    obtain ⟨hinstance, hkey⟩ := Prod.mk.inj hid
    exact ⟨row, List.mem_filter.mpr ⟨hmem, decide_eq_true ⟨hinstance, hvalue⟩⟩, hkey⟩

/-- **The merge keeps what is read.** -/
theorem baseOf_mergeValues {kvDelta : List KvDeltaRow} (hu : UniqueKey KvDeltaRow.id kvDelta) :
    baseOf (mergeValues instanceId kvDelta kvStore) instanceId =
      overlay (changesOf kvDelta instanceId) (baseOf kvStore instanceId) := by
  funext key
  have hput := map_lookup_foldl_upsert KvRow.value
    (fun new row : KvRow => { row with value := new.value, lastUpdatedAtMs := new.lastUpdatedAtMs })
    (fun _ _ => rfl) (fun _ _ => rfl) (instanceId,
      key) (kvDelta.filterMap (KvDeltaRow.live instanceId))
    (hu.sublist (sublist_live kvDelta)) kvStore
  have hmine : ∀ row : KvRow, row.id = (instanceId, key) →
      row.instanceId = instanceId ∧ row.key = key :=
    fun row hid => Prod.mk.inj hid
  have hcleared : key ∈ _ ↔ changesOf kvDelta instanceId key = some none := mem_cleared_iff hu
  have hlive : baseOf (kvDelta.filterMap (KvDeltaRow.live instanceId)) instanceId key = _ :=
    baseOf_live key hu
  unfold baseOf mergeValues at *
  dsimp only
  unfold overlay
  cases hchange : changesOf kvDelta instanceId key with
  | none =>
    rw [lookup_filter_of_pos, hput, hlive, hchange]
    · rfl
    · intro row _ hid
      obtain ⟨-, rfl⟩ := hmine row hid
      refine decide_eq_true fun h => ?_
      rw [hcleared, hchange] at h
      cases h.2
  | some value =>
    cases value with
    | none =>
      rw [lookup_filter_of_neg]
      · rfl
      · intro row _ hid
        obtain ⟨hinstance, rfl⟩ := hmine row hid
        exact decide_eq_false (not_not.mpr ⟨hinstance, hcleared.mpr hchange⟩)
    | some value =>
      rw [lookup_filter_of_pos, hput, hlive, hchange]
      · rfl
      · intro row _ hid
        obtain ⟨-, rfl⟩ := hmine row hid
        refine decide_eq_true fun h => ?_
        rw [hcleared, hchange] at h
        cases h.2

theorem unique_mergeValues {kvDelta : List KvDeltaRow} (hu : UniqueKey KvRow.id kvStore) :
    UniqueKey KvRow.id (mergeValues instanceId kvDelta kvStore) := by
  unfold mergeValues
  refine List.Nodup.sublist (List.Sublist.map _ List.filter_sublist) ?_
  generalize kvDelta.filterMap (KvDeltaRow.live instanceId) = news
  induction news generalizing kvStore with
  | nil => exact hu
  | cons new news ih =>
    refine ih (hu.upsert ?_ new)
    intro row
    rfl

end

/-! ### Turns -/

/-- No key has two values. -/
structure UniqueValues (s : Store) : Prop where
  store : UniqueKey KvRow.id s.kvStore
  delta : UniqueKey KvDeltaRow.id s.kvDelta

section

variable {s : Store} {instanceId lockToken : String} {turn : Turn} {clock : AckClock}
  {history : List HistoryRow}

theorem UniqueValues.commit (h : UniqueValues s) :
    UniqueValues (s.commit instanceId lockToken turn clock history) := by
  unfold Store.commit
  dsimp only
  cases turn.metadata.isTerminal with
  | true =>
    exact ⟨unique_mergeValues h.store,
      List.Nodup.sublist (List.Sublist.map _ List.filter_sublist)
        (unique_materializeAll turn.historyDelta h.delta)⟩
  | false => exact ⟨h.store, unique_materializeAll turn.historyDelta h.delta⟩

/-- A turn that is committed changes what is read of its instance by its events. -/
theorem getKvValue_commit (h : UniqueValues s) :
    getKvValue (s.commit instanceId lockToken turn clock history) instanceId =
      replay turn.historyDelta (getKvValue s instanceId) := by
  rw [getKvValue_eq, getKvValue_eq, ← overlay_materializeAll clock.cleared]
  unfold Store.commit
  dsimp only
  cases turn.metadata.isTerminal with
  | false => rfl
  | true =>
    have hnone : changesOf ((materializeAll instanceId clock.cleared turn.historyDelta s.kvStore
      s.kvDelta).filter
        fun row => row.instanceId ≠ instanceId) instanceId = fun _ => none := by
      funext key
      rw [changesOf, lookup_filter_of_neg]
      · rfl
      · exact fun row _ hkey => decide_eq_false (not_not.mpr (congrArg Prod.fst hkey))
    rw [if_pos rfl, if_pos rfl, hnone, overlay_of_none,
      baseOf_mergeValues (unique_materializeAll turn.historyDelta h.delta)]

/-- At the end of an execution what is read becomes the base. -/
theorem baseOf_commit (h : UniqueValues s) :
    baseOf (s.commit instanceId lockToken turn clock history).kvStore instanceId =
      if turn.metadata.isTerminal then replay turn.historyDelta (getKvValue s instanceId)
      else baseOf s.kvStore instanceId := by
  unfold Store.commit
  dsimp only
  cases turn.metadata.isTerminal with
  | false => rfl
  | true =>
    rw [if_pos rfl, if_pos rfl,
      baseOf_mergeValues (unique_materializeAll turn.historyDelta h.delta),
      overlay_materializeAll, getKvValue_eq]

/-- A turn of another instance leaves the values alone. -/
theorem values_commit_other {other : String} (hne : other ≠ instanceId) :
    getKvValue (s.commit instanceId lockToken turn clock history) other = getKvValue s other
      ∧ baseOf (s.commit instanceId lockToken turn clock history).kvStore other =
        baseOf s.kvStore other := by
  have hbase : baseOf (s.commit instanceId lockToken turn clock history).kvStore other =
      baseOf s.kvStore other :=
    baseOf_congr (valuesOf_commit hne)
  have hchanges : changesOf (s.commit instanceId lockToken turn clock history).kvDelta other =
      changesOf s.kvDelta other := by
    refine changesOf_congr ?_
    unfold Store.commit
    dsimp only
    split_ifs
    · rw [filter_filter_of_imp, filter_materializeAll hne]
      intro row _ hrow
      rw [decide_eq_true_eq] at hrow ⊢
      exact hrow ▸ hne
    · exact filter_materializeAll hne _ _
  rw [getKvValue_eq, getKvValue_eq, hbase, hchanges]
  exact ⟨rfl, rfl⟩

end

/-! ### Runs -/

/-- The events of the turns of an instance that have been committed: those of the executions that
have ended, and those since. -/
structure Journal where
  settled : List Event
  current : List Event

/-- Nothing has happened. -/
def Journal.empty : Journal := ⟨[], []⟩

/-- A turn adds its events, and settles what there is when it ends an execution. -/
def Journal.add (j : Journal) (turn : Turn) : Journal :=
  if turn.metadata.isTerminal then ⟨j.settled ++ j.current ++ turn.historyDelta, []⟩
  else ⟨j.settled, j.current ++ turn.historyDelta⟩

/-- What an operation commits for the instance. -/
def committedTurn (instanceId : String) (s : Store) : Op → Option Turn
  | .ackOrchestration lockToken turn clock =>
    match ackOrchestrationItem lockToken turn clock s, s.instanceLocks.find? fun lock =>
      lock.lockToken = lockToken with
    | .ok _, some held => if held.instanceId = instanceId then some turn else none
    | _, _ => none
  | _ => none

/-- The journal of an instance over a run. -/
def journal (instanceId : String) : List Op → Store → Journal → Journal
  | [], _, j => j
  | op :: ops, s, j =>
    journal instanceId ops (perform s op) (((committedTurn instanceId s op).map j.add).getD j)

/-- What is in the store, and what a turn is given, are the events replayed. -/
structure Replayed (instanceId : String) (j : Journal) (s : Store) : Prop where
  unique : UniqueValues s
  read : getKvValue s instanceId = replay (j.settled ++ j.current) fun _ => none
  base : baseOf s.kvStore instanceId = replay j.settled fun _ => none

/-- Only turns change values. -/
theorem values_of_not_ack {s : Store} {op : Op}
    (h : ∀ lockToken turn clock, op ≠ .ackOrchestration lockToken turn clock) :
    (perform s op).kvStore = s.kvStore ∧ (perform s op).kvDelta = s.kvDelta := by
  have heffect := effect_perform s op
  generalize perform s op = s' at heffect
  cases heffect with
  | committed hheld hhistory hack => exact absurd rfl (h _ _ _)
  | _ => exact ⟨rfl, rfl⟩

section

variable {instanceId : String} {j : Journal} {s s' : Store}

theorem Replayed.congr (h : Replayed instanceId j s) (hstore : s'.kvStore = s.kvStore)
    (hdelta : s'.kvDelta = s.kvDelta) : Replayed instanceId j s' := by
  refine ⟨⟨hstore ▸ h.unique.store, hdelta ▸ h.unique.delta⟩, ?_, by rw [hstore, h.base]⟩
  rw [← h.read, getKvValue_eq, getKvValue_eq, hstore, hdelta]

theorem Replayed.commit (h : Replayed instanceId j s) {lockToken : String} {turn : Turn}
    {clock : AckClock} {history : List HistoryRow} :
    Replayed instanceId (j.add turn) (s.commit instanceId lockToken turn clock history) := by
  refine ⟨h.unique.commit, ?_, ?_⟩
  · rw [getKvValue_commit h.unique, h.read, Journal.add]
    split_ifs
    · rw [List.append_nil, replay_append _ turn.historyDelta]
    · rw [← List.append_assoc, replay_append _ turn.historyDelta]
  · rw [baseOf_commit h.unique, h.read, h.base, Journal.add]
    split_ifs
    · rw [replay_append _ turn.historyDelta]
    · rfl

theorem Replayed.step (h : Replayed instanceId j s) (op : Op) :
    Replayed instanceId (((committedTurn instanceId s op).map j.add).getD j) (perform s op) := by
  by_cases hop : ∃ lockToken turn clock, op = .ackOrchestration lockToken turn clock
  · obtain ⟨lockToken, turn, clock, rfl⟩ := hop
    change Replayed instanceId _ (orUnchanged s (ackOrchestrationItem lockToken turn clock s))
    cases hack : ackOrchestrationItem lockToken turn clock s with
    | error e =>
      rw [committedTurn, hack]
      exact h
    | ok s' =>
      obtain ⟨held, history, hheld, hhistory, rfl⟩ := ackOrchestrationItem_eq_ok hack
      rw [committedTurn, hack, hheld]
      dsimp only
      by_cases hmine : held.instanceId = instanceId
      · rw [if_pos hmine, hmine]
        exact h.commit
      · rw [if_neg hmine]
        obtain ⟨hread, hbase⟩ := values_commit_other (s := s) (Ne.symm hmine)
        exact ⟨h.unique.commit, hread.trans h.read, hbase.trans h.base⟩
  · have hnone : committedTurn instanceId s op = none := by
      cases op <;> first | rfl | exact absurd ⟨_, _, _, rfl⟩ hop
    obtain ⟨hstore, hdelta⟩ := values_of_not_ack fun lockToken turn clock heq =>
      hop ⟨lockToken, turn, clock, heq⟩
    rw [hnone]
    exact h.congr hstore hdelta

end

theorem replayed_journal (instanceId : String) : ∀ (ops : List Op) {j : Journal} {s : Store},
    Replayed instanceId j s → Replayed instanceId (journal instanceId ops s j) (run ops s)
  | [], _, _, h => h
  | op :: ops, _, _, h => replayed_journal instanceId ops (h.step op)

/-- **The two tables are one map**: over every run, what a client reads of an instance is what the
events of its committed turns make of nothing, in their order; what a turn starts from is the same
at the end of the last execution; and the events since lead from the one to the other. -/
theorem getKvValue_run (instanceId : String) (ops : List Op) :
    getKvValue (run ops .init) instanceId =
        replay ((journal instanceId ops .init .empty).settled
          ++ (journal instanceId ops .init .empty).current)
          (fun _ => none)
      ∧ baseOf (run ops .init).kvStore instanceId =
        replay (journal instanceId ops .init .empty).settled (fun _ => none)
      ∧ getKvValue (run ops .init) instanceId =
        replay (journal instanceId ops .init .empty).current
          (baseOf (run ops .init).kvStore instanceId) := by
  have hinit : Replayed instanceId .empty .init := ⟨⟨List.nodup_nil, List.nodup_nil⟩, rfl, rfl⟩
  obtain ⟨-, hread, hbase⟩ := replayed_journal instanceId ops hinit
  refine ⟨hread, hbase, ?_⟩
  rw [hread, hbase, replay_append]

/-! ### What is read at once -/

/-- The snapshot of a turn has the values of the base. -/
theorem lookup_getKvSnapshot (s : Store) (instanceId key : String) :
    ((getKvSnapshot s instanceId).lookup key).map Prod.fst = baseOf s.kvStore instanceId key := by
  unfold getKvSnapshot baseOf
  induction s.kvStore with
  | nil => rfl
  | cons row rows ih =>
    by_cases hmine : row.instanceId = instanceId
    · rw [List.filter_cons_of_pos (by simpa using hmine), List.map_cons, List.lookup_cons]
      by_cases hkey : key = row.key
      · have hid : row.id = (instanceId, key) := by rw [KvRow.id, hmine, hkey]
        rw [beq_iff_eq.mpr hkey, lookup, List.find?_cons_of_pos (by simpa using hid)]
        rfl
      · have hid : row.id ≠ (instanceId, key) := fun h => hkey (congrArg Prod.snd h).symm
        rw [beq_eq_false_iff_ne.mpr hkey, lookup, List.find?_cons_of_neg (by simpa using hid)]
        exact ih
    · have hid : row.id ≠ (instanceId, key) := fun h => hmine (congrArg Prod.fst h)
      rw [List.filter_cons_of_neg (by simpa using hmine), lookup,
        List.find?_cons_of_neg (by simpa using hid)]
      exact ih

theorem lookup_putChange (map : List (String × String)) (row : KvDeltaRow) (key : String) :
    (lookup Prod.fst (putChange map row) key).map Prod.snd =
      if key = row.key then row.value else (lookup Prod.fst map key).map Prod.snd := by
  unfold putChange
  cases row.value with
  | some value =>
    have hput : lookup Prod.fst (upsert Prod.fst map (row.key, value) fun entry =>
      (entry.1, value)) key =
        if key = row.key then
          some (((lookup Prod.fst map key).map fun entry => (entry.1, value)).getD (row.key, value))
        else lookup Prod.fst map key := by
      refine lookup_upsert ?_ map (row.key, value) key
      intro entry
      rfl
    dsimp only
    rw [hput]
    split_ifs
    · cases lookup Prod.fst map key <;> rfl
    · rfl
  | none =>
    dsimp only
    split_ifs with hkey
    · rw [lookup_filter_of_neg fun entry _ hentry =>
        decide_eq_false (not_not.mpr (hentry.trans hkey))]
      rfl
    · rw [lookup_filter_of_pos fun entry _ hentry => decide_eq_true (hentry.symm ▸ hkey)]

theorem lookup_foldl_putChange (key : String) : ∀ {changes : List KvDeltaRow},
    (changes.map KvDeltaRow.key).Nodup →
    ∀ map : List (String × String),
      (lookup Prod.fst (changes.foldl putChange map) key).map Prod.snd =
      ((lookup KvDeltaRow.key changes key).map KvDeltaRow.value).getD
        ((lookup Prod.fst map key).map Prod.snd)
  | [], _, _ => rfl
  | row :: changes, hu, map => by
    obtain ⟨hfirst, hu⟩ := List.nodup_cons.mp hu
    rw [List.foldl_cons, lookup_foldl_putChange key hu, lookup_putChange]
    by_cases hkey : key = row.key
    · have hnone : lookup KvDeltaRow.key changes key = none :=
          lookup_eq_none.mpr fun other hother hsame =>
        hfirst (List.mem_map.mpr ⟨other, hother, hsame.trans hkey⟩)
      have hsome : lookup KvDeltaRow.key (row :: changes) key = some row := by simp [lookup, hkey]
      rw [hnone, hsome, if_pos hkey]
      rfl
    · have hskip : lookup KvDeltaRow.key (row :: changes) key =
          lookup KvDeltaRow.key changes key := by
        simp [lookup, Ne.symm hkey]
      rw [hskip, if_neg hkey]

/-- The values of an instance have one row for a key. -/
theorem lookup_mine {ρ : Type*} (instanceOf keyOf : ρ → String) (instanceId key : String)
    (table : List ρ) :
    lookup keyOf (table.filter fun row => instanceOf row = instanceId) key =
      lookup (fun row => (instanceOf row, keyOf row)) table (instanceId, key) := by
  rw [lookup, lookup, List.find?_filter]
  refine List.find?_congr fun row _ => ?_
  simp [Prod.mk.injEq]

/-- **Reading all values is reading each**, in every state that a run leads to. -/
theorem lookup_getKvAllValues (instanceId : String) (ops : List Op) (key : String) :
    (lookup Prod.fst (getKvAllValues (run ops .init) instanceId) key).map Prod.snd =
      getKvValue (run ops .init) instanceId key := by
  have hinit : Replayed instanceId .empty .init := ⟨⟨List.nodup_nil, List.nodup_nil⟩, rfl, rfl⟩
  obtain ⟨⟨-, hdelta⟩, -, -⟩ := replayed_journal instanceId ops hinit
  generalize run ops .init = s at hdelta
  have hids : ((s.kvDelta.filter fun row => row.instanceId = instanceId).map KvDeltaRow.key).map
      (fun key => (instanceId, key)) = (s.kvDelta.filter fun row =>
        row.instanceId = instanceId).map KvDeltaRow.id := by
    rw [List.map_map]
    refine List.map_congr_left fun row hrow => ?_
    rw [Function.comp_apply, KvDeltaRow.id, of_decide_eq_true (List.mem_filter.mp hrow).2]
  have hmine : ((s.kvDelta.filter fun row =>
      row.instanceId = instanceId).map KvDeltaRow.key).Nodup := by
    refine List.Nodup.of_map (fun key => (instanceId, key)) ?_
    rw [hids]
    exact List.Nodup.sublist (List.Sublist.map _ List.filter_sublist) hdelta
  have hbase : (lookup Prod.fst ((s.kvStore.filter fun row =>
      row.instanceId = instanceId).map fun row =>
      (row.key, row.value)) key).map Prod.snd = baseOf s.kvStore instanceId key := by
    rw [lookup, List.find?_map, Option.map_map]
    exact congrArg (Option.map KvRow.value) (lookup_mine KvRow.instanceId KvRow.key
      instanceId key s.kvStore)
  rw [getKvAllValues, lookup_foldl_putChange key hmine, hbase, getKvValue_eq]
  exact congrArg (fun row : Option KvDeltaRow =>
    (row.map KvDeltaRow.value).getD (baseOf s.kvStore instanceId key))
    (lookup_mine KvDeltaRow.instanceId KvDeltaRow.key instanceId key s.kvDelta)

end Sporos.Vendor.Provider
