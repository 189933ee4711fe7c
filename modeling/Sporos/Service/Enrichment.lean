import Sporos.Service.CompletionOnce
import Sporos.Service.Manifest
import Sporos.Service.SourceFacts

/-! # Enrichment

Before a search the release of a torrent is enriched (`arr.rs`) with what the instances of Sonarr
and Radarr say about its download: an identity and alternate titles, which go into the release of
the torrent and into the facts of the source. The projection of the inventory writes the same
columns, from the name of the torrent alone. What an enrichment has applied is therefore kept until
the torrent is projected again (`enrichment_kept_iff`). -/

namespace Sporos.Service.Enrichment

open Sporos.Model.Matching
open Sporos.Matcher.Release
open Sporos.Service.Tables
open Sporos.Service.Inventory
open Sporos.Service.Sources
open Sporos.Service.SourceFacts
open Sporos.Service.QbitProjection
open Sporos.Service.QbitSync
open Sporos.Service.CompletionOnce (Torrents torrent_projectTorrent)
open Sporos.Service.Manifest (evolves_projectChange evolves_finish KeepsManifest FreshTorrent)
open Sporos.Lib.Table
open Sporos.Lib.Loop

/-! ### The instances and the cache -/

/-- `ArrKind` of the configuration. -/
inductive InstanceKind where
  | sonarr
  | radarr
  deriving DecidableEq, Repr

/-- `ArrIdentity` of the history of an instance. -/
structure HistoryIdentity where
  sourceTitle : Str
  eventType : Str
  seriesId : Option ℤ
  episodeId : Option ℤ
  movieId : Option ℤ
  title : Option Str
  tvdbId : Option ℤ
  tmdbId : Option ℤ
  imdbId : Option Str
  deriving DecidableEq, Repr

/-- An instance that is asked about its history. -/
structure EnrichmentInstance where
  kind : InstanceKind
  name : Str
  deriving DecidableEq, Repr

/-- A row of `sporos_arr_enrichment_cache`. -/
structure CacheRow where
  sourceId : Id
  instanceKind : InstanceKind
  instanceName : Str
  sourceHash : String
  identity : Option HistoryIdentity
  fetchedAt : ℤ
  negativeExpiresAt : Option ℤ
  deriving DecidableEq, Repr

/-- A row of the cache is told apart by the source and the instance. -/
def CacheRow.key (row : CacheRow) : Id × InstanceKind × Str :=
  (row.sourceId, row.instanceKind, row.instanceName)

/-- What an enrichment has done. -/
structure EnrichmentReport where
  queried : ℕ
  cacheHits : ℕ
  failed : ℕ
  applied : Bool
  deriving DecidableEq, Repr

/-- Nothing has been done. -/
def EnrichmentReport.default : EnrichmentReport := ⟨0, 0, 0, false⟩

/-- `NEGATIVE_CACHE_MS`. -/
def negativeCacheMs : ℤ := 60 * 60 * 1000

/-- What the cache knows of a source. -/
inductive CacheState where
  | hit (identity : Option HistoryIdentity)
  | miss

/-- `cached`: what a row of the cache is still good for. -/
def cached (cache : List CacheRow) (sourceId : Id) (inst : EnrichmentInstance)
    (sourceHash : String) (now : ℤ) : CacheState :=
  match lookup CacheRow.key cache (sourceId, inst.kind, inst.name) with
  | none => .miss
  | some row =>
    if row.sourceHash ≠ sourceHash then .miss
    else match row.identity with
      | some identity => .hit (some identity)
      | none => if row.negativeExpiresAt.any (now < ·) then .hit none else .miss

/-- `cache_arr_identity`. -/
def cacheArrIdentity (cache : List CacheRow) (entry : CacheRow) : List CacheRow :=
  if (lookup CacheRow.key cache entry.key).isSome
    then updateKey CacheRow.key cache entry.key fun _ => entry
  else cache ++ [entry]

/-- The instance manages releases of that kind. -/
def relevant (kind : InstanceKind) : VideoKind → Bool
  | .movie | .disc => kind = .radarr
  | .episode | .seasonPack | .dateEpisode | .absoluteEpisode => kind = .sonarr
  | .unknownVideo => true

/-- The identity that a history tells. -/
def modelIdentity (inst : EnrichmentInstance) (identity : HistoryIdentity) :
    Option ArrIdentity := do
  let (kind, entityId) ← match inst.kind with
    | .sonarr => identity.seriesId.map fun id => (ArrKind.series, id)
    | .radarr => identity.movieId.map fun id => (ArrKind.movie, id)
  return ⟨kind, inst.name, entityId, identity.tvdbId, identity.tmdbId, identity.imdbId⟩

/-! ### The enrichment of a source -/

/-- What an enrichment has applied: the release that it wrote. -/
structure Applied where
  sourceId : Id
  release : ReleaseDescriptor
  deriving DecidableEq, Repr

/-- The torrents with their facts, the cache, and what the enrichments have applied. -/
structure World where
  store : Store
  facts : Facts
  cache : List CacheRow
  applied : List Applied

/-- No torrent, and nothing known. -/
def World.init : World := ⟨Store.empty, Facts.empty, [], []⟩

/-- What `history_by_download_id` gives for an instance; `none` is an error. -/
abbrev History := EnrichmentInstance → Option (Option HistoryIdentity)

/-- The loop state of `enrich_source`. -/
structure Enriching where
  cache : List CacheRow
  report : EnrichmentReport
  selected : Option (HistoryIdentity × ArrIdentity)

/-- The first identity that can be modelled is selected. -/
def Enriching.select (loop : Enriching) (inst : EnrichmentInstance)
    (identity : Option HistoryIdentity) : Enriching :=
  { loop with
    selected := loop.selected.or
      (identity.bind fun identity => (modelIdentity inst identity).map fun model =>
        (identity, model)) }

/-- The body of the loop over the instances. -/
def enrichInstance (sourceId : Id) (sourceHash : String) (now : ℤ) (history : History)
    (loop : Enriching) (inst : EnrichmentInstance) : Enriching :=
  match cached loop.cache sourceId inst sourceHash now with
  | .hit identity =>
    { loop with report := { loop.report with cacheHits := loop.report.cacheHits + 1 }
      }.select inst identity
  | .miss =>
    let report := { loop.report with queried := loop.report.queried + 1 }
    match history inst with
    | none => { loop with report := { report with failed := report.failed + 1 } }
    | some identity =>
      let cache := cacheArrIdentity loop.cache
        { sourceId
          instanceKind := inst.kind
          instanceName := inst.name
          sourceHash
          identity
          fetchedAt := now
          negativeExpiresAt := if identity.isNone
            then some (min (now + negativeCacheMs) (2 ^ 63 - 1)) else none }
      { loop with cache, report }.select inst identity

section

variable (U : Unicode)

/-- A title of the history becomes an alternate title, unless the release has it. -/
def addTitle (release : ReleaseDescriptor) (title : Str) : ReleaseDescriptor :=
  let title := (parseRelease U title).primaryTitle
  if title ≠ release.primaryTitle ∧ title ∉ release.alternateTitles then
    { release with alternateTitles := release.alternateTitles ++ [title] }
  else release

/-- The release with the identity and the titles. -/
def enriched (release : ReleaseDescriptor) (identity : HistoryIdentity) (model : ArrIdentity) :
    ReleaseDescriptor :=
  { (identity.title.toList ++ [identity.sourceTitle]).foldl (addTitle U) release with
    arrIdentity := some model }

variable (instances : List EnrichmentInstance)

/-- `enrich_source`. -/
def enrichSource (world : World) (history : History) (sourceId : Id) (now : ℤ) :
    World × EnrichmentReport :=
  match world.store.torrents.find? fun row => row.id = sourceId ∧ row.available = true with
  | none => (world, .default)
  | some row =>
    let loop := (instances.filter fun inst => relevant inst.kind row.release.kind).foldl
      (enrichInstance sourceId row.qbitId now history) ⟨world.cache, .default, none⟩
    match loop.selected with
    | none => ({ world with cache := loop.cache }, loop.report)
    | some (identity, model) =>
      let release := enriched U row.release identity model
      ({ store := world.store.updateTorrent sourceId fun row => { row with release }
         facts := replace world.facts sourceId "qbittorrent" release
         cache := loop.cache
         applied := world.applied ++ [⟨sourceId, release⟩] },
        { loop.report with applied := true })

end

/-! ### The projection of the inventory -/

section

variable (codec : QbitCodec)

/-- A change of a batch, with the facts: those of a torrent are replaced by the ones of its name. -/
def projectFacts (generation : ℕ) (detectCompletions : Bool) (now : ℤ) :
    Store × Facts → InventoryChange → Except ProjectionError (Store × Facts)
  | (store, facts), .upsert qbitId delta => do
    let fields ← mergeFields (store.torrent qbitId) delta
    let (store, _, _) ← projectTorrent codec store qbitId delta generation detectCompletions now
    return (store, replace facts (sourceId codec qbitId) "qbittorrent"
      (parseRelease codec.unicode fields.name.toList))
  | (store, facts), .removed qbitId => .ok (removeTorrent store qbitId now, facts)

/-- `project_qbit_batch`, with the facts. -/
def projectBatch (world : Store × Facts) (changes : List InventoryChange) (generation : ℕ)
    (detectCompletions : Bool) (now : ℤ) : Except ProjectionError (Store × Facts) := do
  let generation ← toI64 generation "generation"
  changes.foldlM (projectFacts codec generation detectCompletions now) world

/-- The transactions of the inventory, and the enrichments. -/
inductive Event where
  | batch (changes : List InventoryChange) (generation : ℕ) (detectCompletions : Bool) (now : ℤ)
  | finish (attempt : Attempt) (generation : ℕ)
  | enrich (history : History) (sourceId : Id) (now : ℤ)

variable (instances : List EnrichmentInstance)

/-- The state after an event. -/
def Event.apply (world : World) : Event → World
  | .batch changes generation detectCompletions now =>
    match projectBatch codec (world.store,
      world.facts) changes generation detectCompletions now with
    | .error _ => world
    | .ok (store, facts) => { world with store, facts }
  | .finish attempt generation =>
    match attempt.finish generation world.store with
    | none => world
    | some store => { world with store }
  | .enrich history sourceId now =>
    (enrichSource codec.unicode instances world history sourceId now).1

/-- The state after some events. -/
def run (world : World) (events : List Event) : World :=
  events.foldl (Event.apply codec instances) world

/-- The state before the event with a number. -/
def worldAt (events : List Event) (n : ℕ) : World := run codec instances World.init (events.take n)

end

/-! ### What a batch rebuilds -/

/-- The identifiers of the torrents are unique, in the store and as those of the sources. -/
structure Valid (codec : QbitCodec) (store : Store) : Prop where
  ids : UniqueKey TorrentRow.id store.torrents
  torrents : Torrents codec store

/-- The releases and the facts of some sources are those of names; the others are as before. -/
structure Rebuilt (ids : Id → Prop) (before after : Store × Facts) : Prop where
  keeps : ∀ row ∈ before.1.torrents, ¬ ids row.id →
    ∃ row' ∈ after.1.torrents, row'.id = row.id ∧ row'.release = row.release
  stems : ∀ row' ∈ after.1.torrents, ¬ ids row'.id →
    ∃ row ∈ before.1.torrents, row.id = row'.id ∧ row.release = row'.release
  named : ∀ row' ∈ after.1.torrents, ids row'.id → row'.release.arrIdentity = none
  titles : ∀ id, ¬ ids id → ∀ title,
    HasTitle before.2 id "qbittorrent" title → HasTitle after.2 id "qbittorrent" title
  externalIds : ∀ id, ¬ ids id → ∀ external,
    HasExternal before.2 id "qbittorrent" external → HasExternal after.2 id "qbittorrent" external

section

variable {ids ids' : Id → Prop} {a b c : Store × Facts}

theorem Rebuilt.refl (a : Store × Facts) : Rebuilt (fun _ => False) a a where
  keeps row hrow _ := ⟨row, hrow, rfl, rfl⟩
  stems row hrow _ := ⟨row, hrow, rfl, rfl⟩
  named _ _ h := h.elim
  titles _ _ _ h := h
  externalIds _ _ _ h := h

theorem Rebuilt.trans (h : Rebuilt ids a b) (h' : Rebuilt ids' b c) :
    Rebuilt (fun id => ids id ∨ ids' id) a c where
  keeps row hrow hids := by
    rw [not_or] at hids
    obtain ⟨row', hrow', hid, hrelease⟩ := h.keeps row hrow hids.1
    obtain ⟨row'', hrow'', hid', hrelease'⟩ := h'.keeps row' hrow' (hid ▸ hids.2)
    exact ⟨row'', hrow'', hid'.trans hid, hrelease'.trans hrelease⟩
  stems row'' hrow'' hids := by
    rw [not_or] at hids
    obtain ⟨row', hrow', hid', hrelease'⟩ := h'.stems row'' hrow'' hids.2
    obtain ⟨row, hrow, hid, hrelease⟩ := h.stems row' hrow' (hid' ▸ hids.1)
    exact ⟨row, hrow, hid.trans hid', hrelease.trans hrelease'⟩
  named row'' hrow'' hids := by
    by_cases hids' : ids' row''.id
    · exact h'.named row'' hrow'' hids'
    · obtain ⟨row', hrow', hid', hrelease'⟩ := h'.stems row'' hrow'' hids'
      rw [← hrelease']
      exact h.named row' hrow' (hid' ▸ hids.resolve_right hids')
  titles id hids title htitle := by
    rw [not_or] at hids
    exact h'.titles id hids.2 title (h.titles id hids.1 title htitle)
  externalIds id hids external hexternal := by
    rw [not_or] at hids
    exact h'.externalIds id hids.2 external (h.externalIds id hids.1 external hexternal)

theorem Rebuilt.congr (h : Rebuilt ids a b) (hids : ∀ id, ids id ↔ ids' id) : Rebuilt ids' a b := by
  rwa [show ids' = ids from funext fun id => propext (hids id).symm]

end

section

variable {codec : QbitCodec} {store store' : Store} {facts facts' : Facts} {generation : ℕ}
  {detectCompletions : Bool} {now : ℤ}

/-- The row of a torrent that has been projected has the release of its name. -/
theorem release_projectTorrent {qbitId : String} {delta : InventoryDelta}
    {completion : Option CompletionTransition} {manifestNeeded : Bool}
    (h : projectTorrent codec store qbitId delta generation detectCompletions now
      = .ok (store', completion, manifestNeeded)) :
    ∃ row, store'.torrent qbitId = some row ∧ row.release.arrIdentity = none := by
  obtain ⟨fields, torrents, -, hupsert, hresult⟩ := projectTorrent_eq_ok h
  have hstore : store'.torrents = torrents := by
    rcases hresult with ⟨-, rfl⟩ | ⟨completedAt, accepted, -, haccept⟩
    · rfl
    · obtain ⟨outbox, completions, inserted, -, -, rfl⟩ := Completion.accept_eq_some haccept
      rfl
  have hlookup := lookup_upsertTorrent hupsert qbitId
  rw [row_qbitId, if_pos rfl] at hlookup
  have hnone : (parseRelease codec.unicode fields.name.toList).arrIdentity = none :=
    (parsed_parseRelease codec.unicode _).arrIdentity
  rw [Store.torrent, hstore, hlookup]
  cases lookup TorrentRow.qbitId store.torrents qbitId with
  | none => exact ⟨_, rfl, hnone⟩
  | some old => exact ⟨_, rfl, hnone⟩

/-- The facts leave the projection of the torrents as it is. -/
theorem projectChange_of_projectFacts {change : InventoryChange} (batch : ProjectionBatch)
    (h : projectFacts codec generation detectCompletions now (store, facts) change =
      .ok (store', facts')) :
    ∃ batch', projectChange codec generation detectCompletions now (store, batch) change
      = .ok (store', batch') := by
  cases change with
  | removed qbitId =>
    obtain ⟨rfl, -⟩ : removeTorrent store qbitId now = store' ∧ _ := by simpa [projectFacts] using h
    exact ⟨_, rfl⟩
  | upsert qbitId delta =>
    obtain ⟨fields, -, h⟩ := bind_eq_ok.mp h
    obtain ⟨⟨store₁, completion, manifestNeeded⟩, hproject, h⟩ := bind_eq_ok.mp h
    obtain ⟨rfl, -⟩ : store₁ = store' ∧ _ := by simpa [pure, Except.pure] using h
    exact ⟨_, by rw [projectChange, hproject]; rfl⟩

/-- The sources that a change rebuilds. -/
def Rebuilds (codec : QbitCodec) (changes : List InventoryChange) (id : Id) : Prop :=
  ∃ qbitId, Upserts changes qbitId ∧ sourceId codec qbitId = id

theorem rebuilt_upsert {qbitId : String} {delta : InventoryDelta} (hvalid : Valid codec store)
    (hids : UniqueKey TorrentRow.id store'.torrents)
    (h : projectFacts codec generation detectCompletions now (store, facts) (.upsert qbitId delta)
      = .ok (store', facts')) :
    Torrents codec store' ∧ Rebuilt (· = sourceId codec qbitId) (store,
      facts) (store', facts') := by
  obtain ⟨fields, -, h⟩ := bind_eq_ok.mp h
  obtain ⟨⟨store₁, completion, manifestNeeded⟩, hproject, h⟩ := bind_eq_ok.mp h
  obtain ⟨rfl, rfl⟩ : store₁ = store' ∧ _ = facts' := by simpa [pure, Except.pure] using h
  obtain ⟨-, -, htorrents, hothers, -, -⟩ := torrent_projectTorrent hvalid.torrents hproject
  obtain ⟨new, hnew, hnone⟩ := release_projectTorrent hproject
  -- The rows of the other torrents are the same.
  have hsame : ∀ row, row.id ≠ sourceId codec qbitId →
      (row ∈ store.torrents ↔ row ∈ store₁.torrents) := by
    intro row hne
    constructor
    · intro hrow
      have hother : row.qbitId ≠ qbitId :=
        fun heq => hne (heq ▸ hvalid.torrents.identified row hrow)
      have hlookup : store.torrent row.qbitId = some row :=
        UniqueKey.lookup_of_mem hvalid.torrents.unique hrow rfl
      rw [← hothers _ hother] at hlookup
      exact (lookup_eq_some_mem hlookup).1
    · intro hrow
      have hother : row.qbitId ≠ qbitId := fun heq => hne (heq ▸ htorrents.identified row hrow)
      have hlookup : store₁.torrent row.qbitId = some row :=
        UniqueKey.lookup_of_mem htorrents.unique hrow rfl
      rw [hothers _ hother] at hlookup
      exact (lookup_eq_some_mem hlookup).1
  have hframe : ∀ id, id ≠ sourceId codec qbitId →
      ¬ (id, "qbittorrent") = (sourceId codec qbitId, "qbittorrent") := by
    intro id hne heq
    exact hne (Prod.mk.inj heq).1
  refine ⟨htorrents, ?_, ?_, ?_, ?_, ?_⟩
  · exact fun row hrow hne => ⟨row, (hsame row hne).mp hrow, rfl, rfl⟩
  · exact fun row hrow hne => ⟨row, (hsame row hne).mpr hrow, rfl, rfl⟩
  · intro row hrow heq
    obtain ⟨hmem, hqbitId⟩ := lookup_eq_some_mem hnew
    have hid : new.id = sourceId codec qbitId := hqbitId ▸ htorrents.identified new hmem
    rw [List.inj_on_of_nodup_map hids hrow hmem (heq.trans hid.symm)]
    exact hnone
  · intro id hne title htitle
    rw [hasTitle_replace, if_neg (hframe id hne)]
    exact htitle
  · intro id hne external hexternal
    rw [hasExternal_replace, if_neg (hframe id hne)]
    exact hexternal

/-- Rows that are rewritten with their identifiers and their releases. -/
theorem rebuilt_map {g : TorrentRow → TorrentRow} (facts : Facts) (hvalid : Valid codec store)
    (hg : ∀ row, (g row).id = row.id ∧ (g row).qbitId = row.qbitId ∧ (g row).release = row.release)
    (htorrents : store'.torrents = store.torrents.map g) :
    Valid codec store' ∧ Rebuilt (fun _ => False) (store, facts) (store', facts) := by
  have hmem : ∀ row', row' ∈ store'.torrents ↔ ∃ row ∈ store.torrents, g row = row' := by
    intro row'
    rw [htorrents, List.mem_map]
  have hcolumn : ∀ {β : Type} {column : TorrentRow → β}, (∀ row, column (g row) = column row) →
      store'.torrents.map column = store.torrents.map column := by
    intro β column hcolumn
    rw [htorrents, List.map_map]
    exact List.map_congr_left fun row _ => hcolumn row
  refine ⟨⟨.of_map_eq (hcolumn fun row => (hg row).1) hvalid.ids,
    .of_map_eq (hcolumn fun row => (hg row).2.1) hvalid.torrents.unique, fun row' hrow' => ?_⟩,
      ?_, ?_, ?_, ?_, ?_⟩
  · obtain ⟨row, hrow, rfl⟩ := (hmem row').mp hrow'
    rw [(hg row).1, (hg row).2.1]
    exact hvalid.torrents.identified row hrow
  · exact fun row hrow _ => ⟨g row, (hmem _).mpr ⟨row, hrow, rfl⟩, (hg row).1, (hg row).2.2⟩
  · intro row' hrow' _
    obtain ⟨row, hrow, rfl⟩ := (hmem row').mp hrow'
    exact ⟨row, hrow, (hg row).1.symm, (hg row).2.2.symm⟩
  · exact fun _ _ h => h.elim
  · exact fun _ _ _ h => h
  · exact fun _ _ _ h => h

/-- **A change** rebuilds the source of the torrent that it upserts. -/
theorem rebuilt_change {change : InventoryChange} (hvalid : Valid codec store)
    (h : projectFacts codec generation detectCompletions now (store, facts) change =
      .ok (store', facts')) :
    Valid codec store' ∧ Rebuilt (Rebuilds codec [change]) (store, facts) (store', facts') := by
  obtain ⟨batch', hchange⟩ := projectChange_of_projectFacts ⟨0, [], []⟩ h
  have hids : UniqueKey TorrentRow.id store'.torrents :=
    (evolves_projectChange hvalid.torrents.unique hchange).1.unique hvalid.ids
      (fun _ _ h => h.id) fun _ h => h.id
  cases change with
  | upsert qbitId delta =>
    obtain ⟨htorrents, hrebuilt⟩ := rebuilt_upsert hvalid hids h
    refine ⟨⟨hids, htorrents⟩, hrebuilt.congr fun id => ?_⟩
    simp [Rebuilds, Upserts, eq_comm]
  | removed qbitId =>
    obtain ⟨rfl, rfl⟩ : removeTorrent store qbitId now = store' ∧ facts = facts' := by
      simpa [projectFacts] using h
    have hmap : (removeTorrent store qbitId now).torrents
        = store.torrents.map fun row => if row.qbitId = qbitId
          then removedRow now row else row := rfl
    obtain ⟨hvalid', hrebuilt⟩ := rebuilt_map facts hvalid (fun row => by split <;>
      exact ⟨rfl, rfl, rfl⟩) hmap
    refine ⟨hvalid', hrebuilt.congr fun id => ?_⟩
    simp [Rebuilds, Upserts]

/-- **A batch** rebuilds the sources of the torrents that it upserts. -/
theorem rebuilt_batch {changes : List InventoryChange} (hvalid : Valid codec store)
    (h : projectBatch codec (store, facts) changes generation detectCompletions now =
      .ok (store', facts')) :
    Valid codec store' ∧ Rebuilt (Rebuilds codec changes) (store, facts) (store', facts') := by
  obtain ⟨generation', -, h⟩ := bind_eq_ok.mp h
  have hrun := foldlM_invariant (f := projectFacts codec generation' detectCompletions now)
    (P := fun done state => Valid codec state.1
      ∧ Rebuilt (Rebuilds codec done) (store, facts) state)
    (fun done change state state' hstate hchange => ?_) changes [] (store, facts) (store',
      facts') ⟨hvalid, ?_⟩ h
  · exact hrun
  · obtain ⟨hvalid₁, hrebuilt₁⟩ := rebuilt_change hstate.1 hchange
    refine ⟨hvalid₁, (hstate.2.trans hrebuilt₁).congr fun id => ?_⟩
    simp only [Rebuilds, Upserts, List.mem_append, exists_or, or_and_right]
  · exact (Rebuilt.refl _).congr fun id => by simp [Rebuilds, Upserts]

end

/-! ### What is kept -/

/-- What the last enrichment of a source has applied. -/
def lastApplied (world : World) (id : Id) : Option Applied :=
  (world.applied.filter fun applied => applied.sourceId = id).getLast?

/-- The torrent and the facts still have what an enrichment applied. -/
structure Keeps (world : World) (applied : Applied) : Prop where
  release : ∃ row ∈ world.store.torrents, row.id = applied.sourceId
    ∧ row.release.arrIdentity = applied.release.arrIdentity
    ∧ ∀ title ∈ applied.release.alternateTitles, title ∈ row.release.alternateTitles
  titles : ∀ title ∈ reductionTitles applied.release,
    HasTitle world.facts applied.sourceId "qbittorrent" title
  externalIds : ∀ external ∈ reductionExternalIds applied.release,
    HasExternal world.facts applied.sourceId "qbittorrent" external

/-- The source has what its last enrichment applied. -/
def Kept (world : World) (id : Id) : Prop := ∀ applied, lastApplied world id = some applied →
    Keeps world applied

/-- The event is a batch that is committed and projects the torrent of the source. -/
def Projects (codec : QbitCodec) (world : World) (id : Id) : Event → Prop
  | .batch changes generation detectCompletions now => Rebuilds codec changes id
    ∧ ∃ state, projectBatch codec (world.store,
      world.facts) changes generation detectCompletions now = .ok state
  | _ => False

/-- What holds in every state. -/
structure Inv (codec : QbitCodec) (world : World) : Prop where
  valid : Valid codec world.store
  identities : ∀ applied ∈ world.applied, applied.release.arrIdentity.isSome = true

/-- The release of the torrent is the one that was applied, and the facts are its facts. -/
structure Holds (world : World) (applied : Applied) : Prop where
  release : ∃ row ∈ world.store.torrents, row.id = applied.sourceId ∧ row.release = applied.release
  titles : ∀ title ∈ reductionTitles applied.release,
    HasTitle world.facts applied.sourceId "qbittorrent" title
  externalIds : ∀ external ∈ reductionExternalIds applied.release,
    HasExternal world.facts applied.sourceId "qbittorrent" external

section

variable {codec : QbitCodec} {instances : List EnrichmentInstance} {world world' : World}
  {applied : Applied} {id : Id}

theorem Holds.keeps (h : Holds world applied) : Keeps world applied := by
  obtain ⟨row, hrow, hid, hrelease⟩ := h.release
  exact ⟨⟨row, hrow, hid, by rw [hrelease], fun title htitle => by rwa [hrelease]⟩,
    h.titles, h.externalIds⟩

theorem lastApplied_mem (h : lastApplied world id = some applied) :
    applied ∈ world.applied ∧ applied.sourceId = id := by
  obtain ⟨hmem, hid⟩ := List.mem_filter.mp (List.mem_of_getLast? h)
  exact ⟨hmem, of_decide_eq_true hid⟩

/-- What was applied to a source that is not rebuilt. -/
theorem Holds.rebuilt {ids : Id → Prop} (h : Holds world applied) (hids : ¬ ids applied.sourceId)
    (hrebuilt : Rebuilt ids (world.store, world.facts) (world'.store, world'.facts)) :
      Holds world' applied := by
  obtain ⟨row, hrow, hid, hrelease⟩ := h.release
  obtain ⟨row', hrow', hid', hrelease'⟩ := hrebuilt.keeps row hrow (hid ▸ hids)
  exact ⟨⟨row', hrow', hid'.trans hid, hrelease'.trans hrelease⟩,
    fun title htitle => hrebuilt.titles _ hids title (h.titles title htitle),
    fun external hexternal =>
      hrebuilt.externalIds _ hids external (h.externalIds external hexternal)⟩

/-- What was applied to a source that is rebuilt. -/
theorem not_keeps_of_rebuilt {ids : Id → Prop} {before : Store × Facts}
    (hids : ids applied.sourceId) (hidentity : applied.release.arrIdentity.isSome = true)
    (hrebuilt : Rebuilt ids before (world.store, world.facts)) : ¬ Keeps world applied := by
  rintro ⟨⟨row, hrow, hid, hrelease, -⟩, -, -⟩
  rw [hrebuilt.named row hrow (hid ▸ hids)] at hrelease
  rw [← hrelease] at hidentity
  cases hidentity

/-- **An enrichment** applies a release to the source, or changes nothing but the cache. -/
theorem enrichSource_cases (codec : QbitCodec) (instances : List EnrichmentInstance) (world : World)
    (history : History) (sourceId : Id) (now : ℤ) :
    (∃ cache, (enrichSource codec.unicode instances world history sourceId now).1 =
      { world with cache })
      ∨ ∃ row ∈ world.store.torrents, row.id = sourceId ∧ ∃ release cache,
        release.arrIdentity.isSome = true
        ∧ (enrichSource codec.unicode instances world history sourceId now).1
          = { store := world.store.updateTorrent sourceId fun row => { row with release }
              facts := replace world.facts sourceId "qbittorrent" release
              cache
              applied := world.applied ++ [⟨sourceId, release⟩] } := by
  unfold enrichSource
  split
  · exact .inl ⟨world.cache, rfl⟩
  · rename_i row hrow
    have hfound := List.find?_some hrow
    rw [decide_eq_true_eq] at hfound
    have hid : row.id = sourceId := hfound.1
    dsimp only
    split
    · exact .inl ⟨_, rfl⟩
    · exact .inr ⟨row, List.mem_of_find?_eq_some hrow, hid, _, _, rfl, rfl⟩

/-- The state after an enrichment that applied a release. -/
def World.enriched (world : World) (sourceId : Id) (release : ReleaseDescriptor)
    (cache : List CacheRow) : World where
  store := world.store.updateTorrent sourceId fun row => { row with release }
  facts := replace world.facts sourceId "qbittorrent" release
  cache
  applied := world.applied ++ [⟨sourceId, release⟩]

theorem lastApplied_enriched (sourceId : Id) (release : ReleaseDescriptor) (cache : List CacheRow) :
    lastApplied (world.enriched sourceId release cache) id
      = if sourceId = id then some ⟨sourceId, release⟩ else lastApplied world id := by
  unfold lastApplied World.enriched
  rw [List.filter_append, List.filter_cons, List.filter_nil]
  split <;> simp_all

theorem holds_enriched {row : TorrentRow} (hrow : row ∈ world.store.torrents)
    (release : ReleaseDescriptor) (cache : List CacheRow) :
      Holds (world.enriched row.id release cache) ⟨row.id, release⟩ := by
  refine ⟨⟨{ row with release }, mem_updateKey.mpr ⟨row, hrow, ?_⟩, rfl, rfl⟩,
    fun title htitle => ?_, fun external hexternal => ?_⟩
  · rw [if_pos rfl]
  · exact hasTitle_replace.mpr (by rwa [if_pos rfl])
  · exact hasExternal_replace.mpr (by rwa [if_pos rfl])

theorem Holds.enriched (h : Holds world applied) {sourceId : Id} (hne : applied.sourceId ≠ sourceId)
    (release : ReleaseDescriptor) (cache : List CacheRow) :
    Holds (world.enriched sourceId release cache) applied := by
  have hframe : ¬ (applied.sourceId, "qbittorrent") = (sourceId, "qbittorrent") :=
    fun heq => hne (Prod.mk.inj heq).1
  obtain ⟨row, hrow, hid, hrelease⟩ := h.release
  refine ⟨⟨row, mem_updateKey.mpr ⟨row, hrow, ?_⟩, hid, hrelease⟩, fun title htitle => ?_,
    fun external hexternal => ?_⟩
  · rw [if_neg (hid ▸ hne)]
  · exact hasTitle_replace.mpr (by rw [if_neg hframe]; exact h.titles title htitle)
  · exact hasExternal_replace.mpr (by rw [if_neg hframe]; exact h.externalIds external hexternal)

theorem Inv.enriched (h : Inv codec world) (sourceId : Id) {release : ReleaseDescriptor}
    (cache : List CacheRow) (hidentity : release.arrIdentity.isSome = true) :
      Inv codec (world.enriched sourceId release cache) where
  valid := by
    have hcolumn : ∀ {β : Type} {column : TorrentRow → β},
        (∀ row : TorrentRow, column { row with release } = column row) →
        (world.enriched sourceId release cache).store.torrents.map column =
          world.store.torrents.map column :=
      fun hcolumn => map_updateKey hcolumn sourceId
    refine ⟨.of_map_eq (hcolumn fun _ => rfl) h.valid.ids,
      .of_map_eq (hcolumn fun _ => rfl) h.valid.torrents.unique, fun row hrow => ?_⟩
    obtain ⟨old, hold, rfl⟩ := mem_updateKey.mp hrow
    split <;> exact h.valid.torrents.identified old hold
  identities applied happlied := by
    rcases List.mem_append.mp happlied with hmem | hmem
    · exact h.identities applied hmem
    · obtain rfl := List.mem_singleton.mp hmem
      exact hidentity

/-- What a transaction of the inventory does: it fails, or it rebuilds the sources of the torrents
that it projects. -/
theorem apply_cases (id : Id) (h : Inv codec world) (event : Event) :
    (∃ cache, event.apply codec instances world = { world with cache }
      ∧ ¬ Projects codec world id event)
      ∨ (∃ row ∈ world.store.torrents, ∃ release cache, release.arrIdentity.isSome = true
        ∧ event.apply codec instances world = world.enriched row.id release cache
        ∧ ¬ Projects codec world id event)
      ∨ ∃ ids store facts, event.apply codec instances world = { world with store, facts }
        ∧ Valid codec store ∧ Rebuilt ids (world.store, world.facts) (store, facts)
        ∧ (Projects codec world id event ↔ ids id) := by
  cases event with
  | batch changes generation detectCompletions now =>
    cases hbatch : projectBatch codec (world.store,
      world.facts) changes generation detectCompletions now with
    | error e =>
      refine .inl ⟨world.cache, by simp only [Event.apply, hbatch], ?_⟩
      rintro ⟨-, state, hstate⟩
      rw [hbatch] at hstate
      cases hstate
    | ok state =>
      obtain ⟨store, facts⟩ := state
      obtain ⟨hvalid, hrebuilt⟩ := rebuilt_batch h.valid hbatch
      refine .inr (.inr ⟨Rebuilds codec changes, store, facts, by simp only [Event.apply,
        hbatch], hvalid, hrebuilt, fun hprojects => hprojects.1, fun hids => ⟨hids, _, hbatch⟩⟩)
  | finish attempt generation =>
    cases hfinish : attempt.finish generation world.store with
    | none => exact .inl ⟨world.cache, by simp only [Event.apply, hfinish], fun h => h⟩
    | some store =>
      obtain ⟨inventory, hstore, -⟩ := Attempt.finish_eq_some hfinish
      have hmap : store.torrents = world.store.torrents.map fun row =>
          if attempt.full then sweptRow generation attempt.now row else row := by
        rw [hstore]
        cases attempt.full
        · simp
        · rfl
      obtain ⟨hvalid, hrebuilt⟩ := rebuilt_map world.facts h.valid
        (fun row => by unfold sweptRow; split_ifs <;> exact ⟨rfl, rfl, rfl⟩) hmap
      exact .inr (.inr ⟨fun _ => False, store, world.facts, by simp only [Event.apply, hfinish],
        hvalid, hrebuilt, Iff.rfl⟩)
  | enrich history sourceId now =>
    rcases enrichSource_cases codec instances world history sourceId now
      with ⟨cache, hcache⟩ | ⟨row, hrow, rfl, release, cache, hidentity, happlied⟩
    · exact .inl ⟨cache, hcache, fun h => h⟩
    · exact .inr (.inl ⟨row, hrow, release, cache, hidentity, happlied, fun h => h⟩)

theorem inv_apply (h : Inv codec world) (event : Event) :
    Inv codec (event.apply codec instances world) := by
  rcases apply_cases 0 h event with
    ⟨cache, heq, -⟩ | ⟨row, -, release, cache, hidentity, heq, -⟩ | ⟨ids, store, facts,
      heq, hvalid, -, -⟩
  · rw [heq]
    exact ⟨h.valid, h.identities⟩
  · rw [heq]
    exact h.enriched row.id cache hidentity
  · rw [heq]
    exact ⟨hvalid, h.identities⟩

/-- What was applied last still holds after an event that does not project the torrent. -/
theorem holds_apply (h : Inv codec world) (event : Event)
    (hholds : ∀ applied, lastApplied world id = some applied → Holds world applied)
    (hprojects : Projects codec world id event → lastApplied world id = none) :
    ∀ applied, lastApplied (event.apply codec instances world) id = some applied →
      Holds (event.apply codec instances world) applied := by
  intro applied happlied
  rcases apply_cases id h event with
    ⟨cache, heq, -⟩ | ⟨row, hrow, release, cache, -, heq, -⟩ | ⟨ids, store, facts, heq,
      -, hrebuilt, hids⟩
  · rw [heq] at happlied ⊢
    obtain ⟨hrelease, htitles, hexternalIds⟩ := hholds applied happlied
    exact ⟨hrelease, htitles, hexternalIds⟩
  · rw [heq] at happlied ⊢
    rw [lastApplied_enriched] at happlied
    split at happlied
    · obtain rfl := Option.some_inj.mp happlied
      exact holds_enriched hrow release cache
    · rename_i hne
      refine (hholds applied happlied).enriched ?_ release cache
      rw [(lastApplied_mem happlied).2]
      exact fun heq => hne heq.symm
  · rw [heq] at happlied ⊢
    have hlast : lastApplied world id = some applied := happlied
    refine (hholds applied hlast).rebuilt ?_ hrebuilt
    rw [(lastApplied_mem hlast).2, ← hids]
    intro hproject
    rw [hprojects hproject] at hlast
    cases hlast

/-- What was applied is lost after an event that projects the torrent. -/
theorem not_keeps_apply (h : Inv codec world) {event : Event}
    (hprojects : Projects codec world id event) (happlied : lastApplied world id = some applied) :
    lastApplied (event.apply codec instances world) id = some applied
      ∧ ¬ Keeps (event.apply codec instances world) applied := by
  obtain ⟨hmem, rfl⟩ := lastApplied_mem happlied
  rcases apply_cases applied.sourceId h event with
    ⟨-, -, hnot⟩ | ⟨-, -, -, -, -, -, hnot⟩ | ⟨ids, store, facts, heq, -, hrebuilt, hids⟩
  · exact absurd hprojects hnot
  · exact absurd hprojects hnot
  · rw [heq]
    exact ⟨happlied, not_keeps_of_rebuilt (hids.mp hprojects) (h.identities applied hmem) hrebuilt⟩

end

/-! ### Runs -/

section

variable (codec : QbitCodec) (instances : List EnrichmentInstance) (events : List Event)

theorem worldAt_succ (n : ℕ) :
    worldAt codec instances events (n + 1) = match events[n]? with
      | none => worldAt codec instances events n
      | some event => event.apply codec instances (worldAt codec instances events n) := by
  unfold worldAt run
  rw [List.take_add_one, List.foldl_append]
  cases events[n]? <;> rfl

theorem inv_worldAt (n : ℕ) : Inv codec (worldAt codec instances events n) := by
  induction n with
  | zero =>
    have hnone : ∀ row ∈ Store.empty.torrents, row.id = sourceId codec row.qbitId := by
      simp [Store.empty]
    exact ⟨⟨List.nodup_nil, List.nodup_nil, hnone⟩, by simp [worldAt, run, World.init]⟩
  | succ n ih =>
    rw [worldAt_succ]
    split
    · exact ih
    · exact inv_apply ih _

/-- **What an enrichment has applied.** In every state of a run the source has the identity and the
titles that its last enrichment applied, in the release of its torrent and in its facts, if, and
only if, no batch that projects the torrent is committed once an enrichment of the source has been
applied. -/
theorem enrichment_kept_iff (id : Id) :
    (∀ n, Kept (worldAt codec instances events n) id)
      ↔ ∀ n event, events[n]? = some event →
        Projects codec (worldAt codec instances events n) id event →
        lastApplied (worldAt codec instances events n) id = none := by
  constructor
  · intro hkept n event hevent hprojects
    by_contra hlast
    obtain ⟨applied, happlied⟩ := Option.ne_none_iff_exists'.mp hlast
    have hsucc : worldAt codec instances events (n + 1)
        = event.apply codec instances (worldAt codec instances events n) := by
      rw [worldAt_succ, hevent]
    obtain ⟨hlast', hlost⟩ :=
      not_keeps_apply (inv_worldAt codec instances events n) hprojects happlied
    rw [← hsucc] at hlast' hlost
    exact hlost (hkept (n + 1) applied hlast')
  · intro hprojects
    have hholds : ∀ n applied, lastApplied (worldAt codec instances events n) id = some applied →
        Holds (worldAt codec instances events n) applied := by
      intro n
      induction n with
      | zero =>
        intro applied happlied
        cases happlied
      | succ n ih =>
        rw [worldAt_succ]
        split
        · exact ih
        · rename_i event hevent
          exact holds_apply (inv_worldAt codec instances events n) event ih
            (hprojects n event hevent)
    exact fun n applied happlied => (hholds n applied happlied).keeps

end

/-! ### A delta after an enrichment -/

/-- A delta of the progress alone. -/
def progressDelta : InventoryDelta where
  infohashV1 := none
  infohashV2 := none
  name := none
  totalSize := none
  amountLeft := none
  progress := some (1 / 2)
  state := none
  savePath := none
  contentPath := none
  category := none
  tags := none
  addedOn := none
  completionOn := none

/-- Radarr knows the download of a film, under another title. -/
def filmHistory : History := fun _ => some (some
  { sourceTitle := "Film 2020".toList
    eventType := "grabbed".toList
    seriesId := none
    episodeId := none
    movieId := some 7
    title := some "The Motion Picture".toList
    tvdbId := none
    tmdbId := some 42
    imdbId := none })

/-- The id of the film. -/
def filmId : Id := sourceId QbitCodec.ascii downloadingTorrent.hash

/-- A torrent is added and enriched, and makes progress. -/
def filmEvents : List Event :=
  [.batch [downloadingTorrent.change] 1 true 10, .enrich filmHistory filmId 20,
    .batch [.upsert downloadingTorrent.hash progressDelta] 1 true 30]

/-- The state after the first events of the film. -/
def filmAt (n : ℕ) : World := worldAt QbitCodec.ascii [⟨.radarr, "films".toList⟩] filmEvents n

/-- A delta that says nothing about the name takes the identity, the titles and the facts of the
enrichment away. -/
theorem enrichment_lost_film :
    (filmAt 2).store.torrents.map (fun row =>
        (row.id, row.release.arrIdentity.map ArrIdentity.entityId, row.release.alternateTitles))
      = [(filmId, some 7, ["the motion picture".toList])]
    ∧ ((filmAt 2).facts.externalIds.map ExternalIdRow.value = ["7".toList, "42".toList])
    ∧ (filmAt 3).store.torrents.map (fun row =>
        (row.id, row.release.arrIdentity.map ArrIdentity.entityId, row.release.alternateTitles))
      = [(filmId, none, [])]
    ∧ (filmAt 3).facts.externalIds = []
    ∧ ¬ Kept (filmAt 3) filmId := by
  have hlost : ∀ row ∈ (filmAt 3).store.torrents,
    row.release.arrIdentity = none := by decide +kernel
  have happlied : ((lastApplied (filmAt 3) filmId).bind fun applied =>
      applied.release.arrIdentity).isSome = true := by
    decide +kernel
  refine ⟨by decide +kernel, by decide +kernel, by decide +kernel, by decide +kernel,
    fun hkept => ?_⟩
  obtain ⟨identity, hidentity⟩ := Option.isSome_iff_exists.mp happlied
  obtain ⟨applied, hlast, hsome⟩ := Option.bind_eq_some_iff.mp hidentity
  obtain ⟨row, hrow, -, hrelease, -⟩ := (hkept applied hlast).release
  rw [hlost row hrow, hsome] at hrelease
  cases hrelease

end Sporos.Service.Enrichment
