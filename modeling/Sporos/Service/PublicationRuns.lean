import Sporos.Service.Publications

/-! # Runs of publications

A page of a data scan publishes the files of the releases that it finds; a sweep publishes nothing.
Whatever the loads, the inventory and the scans have done, the available files of a source are those
of its last publication (`inv_run`). -/

namespace Sporos.Service.PublicationRuns

open Sporos.Service.Tables
open Sporos.Service.Sources
open Sporos.Service.QbitProjection
open Sporos.Service.DataTree
open Sporos.Service.DataScan hiding Event Event.apply
open Sporos.Service.Manifest (Published KeepsManifest FreshTorrent)
open Sporos.Service.Publications
open Sporos.Lib.Table
open Sporos.Lib.Loop

/-! ### Identifiers -/

/-- The identifiers of the sources stay. -/
structure KeepsIds (store store' : Store) : Prop where
  torrents : ∀ row ∈ store.torrents, ∃ row' ∈ store'.torrents, row'.id = row.id
  dataSources : ∀ source ∈ store.dataSources, ∃ source' ∈ store'.dataSources, source'.id = source.id

section

variable {store store' store'' : Store}

theorem KeepsIds.refl (store : Store) : KeepsIds store store :=
  ⟨fun row hrow => ⟨row, hrow, rfl⟩, fun source hsource => ⟨source, hsource, rfl⟩⟩

theorem KeepsIds.trans (h : KeepsIds store store') (h' : KeepsIds store' store'') :
    KeepsIds store store'' := by
  refine ⟨fun row hrow => ?_, fun source hsource => ?_⟩
  · obtain ⟨row', hrow', hid⟩ := h.torrents row hrow
    obtain ⟨row'', hrow'', hid'⟩ := h'.torrents row' hrow'
    exact ⟨row'', hrow'', hid'.trans hid⟩
  · obtain ⟨source', hsource', hid⟩ := h.dataSources source hsource
    obtain ⟨source'', hsource'', hid'⟩ := h'.dataSources source' hsource'
    exact ⟨source'', hsource'', hid'.trans hid⟩

theorem KeepsIds.idsApart (h : KeepsIds store store')
    (hapart : IdsApart store') : IdsApart store := by
  intro row hrow source hsource
  obtain ⟨row', hrow', hid⟩ := h.torrents row hrow
  obtain ⟨source', hsource', hid'⟩ := h.dataSources source hsource
  rw [← hid, ← hid']
  exact hapart row' hrow' source' hsource'

theorem keepsIds_of_torrents (hsources : store'.dataSources = store.dataSources)
    (htorrents : ∀ row ∈ store.torrents, ∃ row' ∈ store'.torrents, row'.id = row.id) :
      KeepsIds store store' :=
  ⟨htorrents, fun source hsource => ⟨source, hsources ▸ hsource, rfl⟩⟩

theorem keepsIds_updateTorrent (sourceId : Id) {f : TorrentRow → TorrentRow}
    (hf : ∀ row, (f row).id = row.id) : KeepsIds store (store.updateTorrent sourceId f) := by
  refine keepsIds_of_torrents rfl fun row hrow => ⟨_, mem_updateKey.mpr ⟨row, hrow, rfl⟩, ?_⟩
  split
  · exact hf row
  · rfl

end

/-- **The statements of a load** keep the identifiers. -/
theorem keepsIds_manifest (codec : QbitCodec) (sys : Manifest.Sys) (event : Manifest.Event) :
    KeepsIds sys.store (event.apply codec sys).store := by
  cases event with
  | change generation detectCompletions now delta =>
    simp only [Manifest.Event.apply]
    split
    · exact .refl _
    · rename_i hchange
      obtain ⟨hsources, hnext, -⟩ := ids_projectChange hchange
      exact keepsIds_of_torrents hsources hnext
  | finishUpdate generation attempt =>
    simp only [Manifest.Event.apply]
    split
    · exact .refl _
    · rename_i store hfinish
      obtain ⟨inventory, rfl, -⟩ := QbitSync.Attempt.finish_eq_some hfinish
      split
      · refine keepsIds_of_torrents rfl fun row hrow => ⟨_, List.mem_map_of_mem hrow, ?_⟩
        split <;> rfl
      · exact keepsIds_of_torrents rfl fun row hrow => ⟨row, hrow, rfl⟩
  | request sourceId =>
    refine keepsIds_updateTorrent sourceId fun row => ?_
    split <;> rfl
  | prepare sourceId =>
    simp only [Manifest.Event.apply]
    split
    · exact .refl _
    · rename_i hprepare
      obtain ⟨row, -, -, -, -, rfl⟩ := prepareQbitManifest_eq_ok hprepare
      obtain ⟨htorrents, hsources⟩ := @keepsIds_updateTorrent sys.store sourceId
        (fun row => { row with fileManifestState := .loading }) fun _ => rfl
      exact ⟨htorrents, hsources⟩
  | stage batch =>
    simp only [Manifest.Event.apply]
    split
    · exact .refl _
    · split
      · split
        · exact .refl _
        · rename_i hproject
          obtain ⟨files, -, rfl⟩ := projectQbitFiles_eq_ok hproject
          exact keepsIds_of_torrents rfl fun row hrow => ⟨row, hrow, rfl⟩
      · exact .refl _
  | publish now =>
    simp only [Manifest.Event.apply]
    split
    · exact .refl _
    · split
      · exact .refl _
      · rename_i load _ _ _ hfinish
        obtain rfl := finishQbitManifest_eq_ok hfinish
        obtain ⟨htorrents, hsources⟩ := @keepsIds_updateTorrent sys.store load.target.sourceId
          (publishedRow load.target.version now) fun _ => rfl
        exact ⟨htorrents, hsources⟩
  | fail sourceId => exact keepsIds_updateTorrent sourceId fun _ => rfl
  | abort => exact .refl _

/-! ### The upsert of a source -/

section

variable {sources sources' : List DataSourceRow} {row : DataSourceRow}

theorem upsertDataSource_cases (h : upsertDataSource sources row = some sources') :
    (∃ old ∈ sources, old.key = row.key
      ∧ sources' = updateKey DataSourceRow.key sources row.key (restamped row))
    ∨ (lookup DataSourceRow.key sources row.key = none
      ∧ lookup DataSourceRow.id sources row.id = none
      ∧ sources' = sources ++ [row]) := by
  unfold upsertDataSource at h
  split_ifs at h with hknown hid
  · obtain ⟨old, hold⟩ := Option.isSome_iff_exists.mp hknown
    obtain ⟨hmem, hkey⟩ := lookup_eq_some_mem hold
    exact .inl ⟨old, hmem, hkey, (Option.some_inj.mp h).symm⟩
  · exact .inr ⟨Option.not_isSome_iff_eq_none.mp hknown, Option.not_isSome_iff_eq_none.mp hid,
      (Option.some_inj.mp h).symm⟩

theorem id_upsertDataSource (h : upsertDataSource sources row = some sources') :
    ∀ source ∈ sources, ∃ source' ∈ sources', source'.id = source.id := by
  intro source hsource
  rcases upsertDataSource_cases h with ⟨_, -, -, rfl⟩ | ⟨-, -, rfl⟩
  · refine ⟨_, mem_updateKey.mpr ⟨source, hsource, rfl⟩, ?_⟩
    split <;> rfl
  · exact ⟨source, List.mem_append_left _ hsource, rfl⟩

/-- The sources after an upsert: the one that is stored, and the others. -/
structure StoresSource (sources sources' : List DataSourceRow) (row : DataSourceRow) : Prop where
  ids : UniqueKey DataSourceRow.id sources'
  keys : UniqueKey DataSourceRow.key sources'
  exists_row : ∃ source ∈ sources', source.id = row.id
  cases : ∀ source ∈ sources',
    (source.key = row.key ∧ source.id = row.id ∧ source.lastSeenGeneration = row.lastSeenGeneration)
      ∨ (source ∈ sources ∧ source.id ≠ row.id)

theorem storesSource_upsertDataSource {codec : ScanCodec}
    (hids : UniqueKey DataSourceRow.id sources) (hkeys : UniqueKey DataSourceRow.key sources)
    (hsourceId : ∀ source ∈ sources,
      source.id = dataSourceId codec source.rootName source.relativePath)
    (hrow : row.id = dataSourceId codec row.rootName row.relativePath)
    (h : upsertDataSource sources row = some sources') : StoresSource sources sources' row := by
  have hid : ∀ source ∈ sources, source.key = row.key → source.id = row.id := by
    intro source hsource hkey
    obtain ⟨hroot, hpath⟩ : source.rootName = row.rootName ∧ source.relativePath =
        row.relativePath := by
      simpa [DataSourceRow.key] using hkey
    rw [hsourceId source hsource, hrow, hroot, hpath]
  rcases upsertDataSource_cases h with ⟨old, hold, hkey, rfl⟩ | ⟨hkey, hfree, rfl⟩
  · refine ⟨?_, ?_, ?_, fun source hsource => ?_⟩
    · exact UniqueKey.of_map_eq (map_updateKey (f := restamped row) (fun _ => rfl) row.key) hids
    · exact UniqueKey.of_map_eq (map_key_updateKey (f := restamped row) fun _ _ => rfl) hkeys
    · refine ⟨_, mem_updateKey.mpr ⟨old, hold, rfl⟩, ?_⟩
      rw [if_pos hkey]
      exact hid old hold hkey
    · obtain ⟨source, hmem, rfl⟩ := mem_updateKey.mp hsource
      split
      · rename_i heq
        exact .inl ⟨rfl, hid source hmem heq, rfl⟩
      · rename_i hne
        refine .inr ⟨hmem, fun heq => hne ?_⟩
        rw [List.inj_on_of_nodup_map hids hmem hold (heq.trans (hid old hold hkey).symm), hkey]
  · refine ⟨unique_append hids hfree, unique_append hkeys hkey, ⟨row, by simp, rfl⟩,
      fun source hsource => ?_⟩
    rcases List.mem_append.mp hsource with hmem | hmem
    · exact .inr ⟨hmem, lookup_eq_none.mp hfree source hmem⟩
    · obtain rfl := List.mem_singleton.mp hmem
      exact .inl ⟨rfl, rfl, rfl⟩

end

/-! ### Scans -/

section

variable {codec : QbitCodec} {scanCodec : ScanCodec} {roots : String → Option DataRoot}
  {sys : Manifest.Sys} {log : List Entry}

/-- Files change that are not of a torrent. -/
theorem published_of_files (h : Published sys) {sys' : Manifest.Sys}
    (htorrents : sys'.store.torrents = sys.store.torrents) (hload : sys'.load = sys.load)
    (hpublished : sys'.published = sys.published)
    (hunique : UniqueKey SourceFileRow.key sys'.store.files)
    (hfiles : ∀ torrent ∈ sys.store.torrents, ∀ version ordinal,
      Manifest.Store.file sys'.store torrent.id version ordinal
        = Manifest.Store.file sys.store torrent.id version ordinal) : Published sys' := by
  constructor
  case qbitIds => rw [htorrents]; exact h.qbitIds
  case ids => rw [htorrents]; exact h.ids
  case files => exact hunique
  case versions => rw [htorrents, hpublished]; exact h.versions
  case unique => rw [hpublished]; exact h.unique
  case loaded =>
    rw [htorrents, hpublished]
    intro row hrow hloaded
    obtain ⟨publication, hmem, hid, hversion, hshows⟩ := h.loaded row hrow hloaded
    refine ⟨publication, hmem, hid, hversion, hshows.of_file fun version ordinal => ?_⟩
    rw [hid]
    exact hfiles row hrow version ordinal
  case load =>
    intro load hsome
    obtain ⟨⟨row, hrow, hid, hversion⟩, hindices, hstaged⟩ := h.load load (hload ▸ hsome)
    refine ⟨⟨row, htorrents ▸ hrow, hid, hversion⟩, hindices, fun ordinal file hfile => ?_⟩
    obtain ⟨old, hold, hmatches⟩ := hstaged ordinal file hfile
    refine ⟨old, ?_, hmatches⟩
    rw [← hid, hfiles row hrow, hid]
    exact hold

/-- The data sources change in columns that the publications do not depend on. -/
theorem inv_sources (h : Inv scanCodec sys log) {sys' : Manifest.Sys}
    (htorrents : sys'.store.torrents = sys.store.torrents)
    (hfiles : sys'.store.files = sys.store.files) (hload : sys'.load = sys.load)
    (hpublished : sys'.published = sys.published) {g : DataSourceRow → DataSourceRow}
    (hg : ∀ source, (g source).id = source.id ∧ (g source).key = source.key
      ∧ (g source).lastSeenGeneration = source.lastSeenGeneration)
    (hsources : sys'.store.dataSources = sys.store.dataSources.map g) : Inv scanCodec sys' log := by
  have howned : ∀ sourceId, Owned sys.store sourceId → Owned sys'.store sourceId := by
    rintro sourceId (htorrent | ⟨source, hsource, hid⟩)
    · exact .inl (by rw [htorrents]; exact htorrent)
    · refine .inr ⟨g source, by rw [hsources]; exact List.mem_map_of_mem hsource,
        (hg source).1.trans hid⟩
  have hids : (sys.store.dataSources.map g).map DataSourceRow.id =
      sys.store.dataSources.map DataSourceRow.id := by
    rw [List.map_map]
    exact List.map_congr_left fun source _ => (hg source).1
  have hkeys : (sys.store.dataSources.map g).map DataSourceRow.key
      = sys.store.dataSources.map DataSourceRow.key := by
    rw [List.map_map]
    exact List.map_congr_left fun source _ => (hg source).2.1
  constructor
  case manifest =>
    exact h.manifest.torrents hfiles (.inr hload) hpublished
      (by rw [htorrents]; exact evolves_refl fun row _ => .refl row)
  case places => rw [htorrents, hfiles]; exact h.places
  case sourceIds => rw [hsources]; exact UniqueKey.of_map_eq hids h.sourceIds
  case sourceKeys => rw [hsources]; exact UniqueKey.of_map_eq hkeys h.sourceKeys
  case sourceId =>
    rw [hsources]
    intro source' hsource'
    obtain ⟨source, hsource, rfl⟩ := List.mem_map.mp hsource'
    obtain ⟨hroot, hpath⟩ := Prod.mk.inj (hg source).2.1
    rw [(hg source).1, hroot, hpath]
    exact h.sourceId source hsource
  case shows => rw [hfiles]; exact h.shows
  case versions => rw [htorrents]; exact h.versions
  case generations =>
    rw [hsources]
    intro source' hsource'
    obtain ⟨source, hsource, rfl⟩ := List.mem_map.mp hsource'
    rw [(hg source).1, (hg source).2.2]
    exact h.generations source hsource
  case owners => exact fun entry hentry => howned _ (h.owners entry hentry)
  case rowOwners => rw [hfiles]; exact fun key row hrow => howned _ (h.rowOwners key row hrow)

theorem inv_same (h : Inv scanCodec sys log) {store : Store} (hsame : SameSources sys.store store) :
    Inv scanCodec { sys with store } log :=
  inv_sources h hsame.torrents hsame.files rfl rfl (g := id) (fun _ => ⟨rfl, rfl, rfl⟩)
    (by rw [List.map_id]; exact hsame.dataSources)

theorem inv_hideSources (h : Inv scanCodec sys log) (rootName : String)
    (p : DataSourceRow → Bool) (now : ℤ) :
    Inv scanCodec { sys with store := hideSources sys.store rootName p now } log := by
  refine inv_sources h rfl rfl rfl rfl (fun source => ?_) rfl
  split <;> exact ⟨rfl, rfl, rfl⟩

theorem keepsIds_persistRelease {store store' : Store} {rootName : String} {generation : ℕ}
    {release : ScannedRelease} {now : ℤ}
    (h : persistRelease scanCodec store rootName generation release now = some store') :
      KeepsIds store store' := by
  obtain ⟨dataSources, hupsert, rfl⟩ := persistRelease_eq_some h
  exact ⟨fun row hrow => ⟨row, hrow, rfl⟩, id_upsertDataSource hupsert⟩

theorem releaseEntry_sourceId (input : ScanInput) (release : ScannedRelease) :
    (releaseEntry scanCodec input release).sourceId
      = dataSourceId scanCodec input.rootName release.relativePath := rfl

/-- **A release** publishes its files. -/
theorem inv_release (h : Inv scanCodec sys log) {input : ScanInput}
    {release : ScannedRelease} {now : ℤ} {store : Store}
    (hpersist : persistRelease scanCodec sys.store input.rootName input.generation release
      now = some store)
    (hapart : IdsApart store) :
    Inv scanCodec { sys with store } (log ++ [releaseEntry scanCodec input release]) := by
  obtain ⟨dataSources, hupsert, rfl⟩ := persistRelease_eq_some hpersist
  obtain ⟨hids, hkeys, ⟨source, hsource, hid⟩, hcases⟩ :=
    storesSource_upsertDataSource h.sourceIds h.sourceKeys h.sourceId rfl hupsert
  have hne : ∀ torrent ∈ sys.store.torrents,
      torrent.id ≠ dataSourceId scanCodec input.rootName release.relativePath := by
    intro torrent htorrent heq
    exact hapart torrent htorrent source hsource (heq.trans hid.symm)
  have howned : ∀ sourceId, Owned sys.store sourceId →
      Owned { sys.store with
        dataSources
        files := persistFiles scanCodec sys.store.files input.rootName input.generation
          release } sourceId := by
    rintro sourceId (htorrent | ⟨old, hold, hid⟩)
    · exact .inl htorrent
    · obtain ⟨new, hnew, hid'⟩ := id_upsertDataSource hupsert old hold
      exact .inr ⟨new, hnew, hid'.trans hid⟩
  constructor
  case manifest =>
    exact published_of_files h.manifest rfl rfl rfl (unique_persistFiles _ _ _ _ h.manifest.files)
      fun torrent htorrent version ordinal =>
        lookup_persistFiles_of_ne _ _ _ _ _ (hne torrent htorrent)
  case places =>
    intro torrent htorrent version ordinal row hrow
    rw [show lookup SourceFileRow.key _ _ = _ from
      lookup_persistFiles_of_ne _ _ _ _ sys.store.files (hne torrent htorrent)] at hrow
    exact h.places torrent htorrent version ordinal row hrow
  case sourceIds => exact hids
  case sourceKeys => exact hkeys
  case sourceId =>
    intro source' hsource'
    rcases hcases source' hsource' with ⟨hkey, hid', -⟩ | ⟨hold, -⟩
    · obtain ⟨hroot, hpath⟩ := Prod.mk.inj hkey
      rw [hid', hroot, hpath]
      rfl
    · exact h.sourceId source' hold
  case shows =>
    intro sourceId
    rw [current_append]
    split
    · rename_i heq
      subst heq
      exact shows_persistFiles scanCodec input release sys.store.files
    · rename_i hother
      exact (h.shows sourceId).of_same (sameAvailable_of_eq fun version ordinal =>
        lookup_persistFiles_of_ne _ _ _ _ _ (Ne.symm hother))
  case versions =>
    intro torrent htorrent
    rw [current_append, releaseEntry_sourceId, if_neg (hne torrent htorrent).symm]
    exact h.versions torrent htorrent
  case generations =>
    intro source' hsource'
    rw [current_append, releaseEntry_sourceId]
    rcases hcases source' hsource' with ⟨-, hid', hgeneration⟩ | ⟨hold, hother⟩
    · rw [if_pos (show dataSourceId scanCodec input.rootName release.relativePath = _ from
        hid'.symm), hgeneration]
      rfl
    · rw [if_neg (show dataSourceId scanCodec input.rootName release.relativePath ≠ _ from
        Ne.symm hother)]
      exact h.generations source' hold
  case owners =>
    intro entry hentry
    rcases List.mem_append.mp hentry with hentry | hentry
    · exact howned _ (h.owners entry hentry)
    · obtain rfl := List.mem_singleton.mp hentry
      exact .inr ⟨source, hsource, hid⟩
  case rowOwners =>
    intro key row hrow
    by_cases heq : key.1 = dataSourceId scanCodec input.rootName release.relativePath
    · exact .inr ⟨source, hsource, hid.trans heq.symm⟩
    · rw [show lookup SourceFileRow.key _ _ = _ from
        lookup_persistFiles_of_ne _ _ _ _ sys.store.files heq] at hrow
      exact howned _ (h.rowOwners key row hrow)

theorem keepsIds_releases {root : DataRoot} {input : ScanInput} {now : ℤ}
    {releases : List ScannedRelease} {state state' : Store × ℕ}
    (hfold : releases.foldlM (persistOne scanCodec root input now) state = .ok state') :
    KeepsIds state.1 state'.1 := by
  have hinvariant := foldlM_invariant_mem (P := fun _ (after : Store × ℕ) =>
    KeepsIds state.1 after.1)
    (fun _ release _ before after hbefore hafter =>
      hbefore.trans (keepsIds_persistRelease (persistOne_eq_ok hafter))) (.refl _) hfold
  exact hinvariant

/-- The releases of a page. -/
theorem inv_releases {root : DataRoot} {input : ScanInput} {now : ℤ} :
    ∀ {releases : List ScannedRelease} {sys : Manifest.Sys} {log : List Entry} {count : ℕ}
      {state : Store × ℕ},
      Inv scanCodec sys log →
      releases.foldlM (persistOne scanCodec root input now) (sys.store, count) = .ok state →
        IdsApart state.1 →
      Inv scanCodec { sys with
        store := state.1 } (log ++ releases.map (releaseEntry scanCodec input))
  | [], sys, log, count, state, h, hfold, _ => by
    obtain rfl := Except.ok.inj hfold
    simpa using h
  | release :: releases, sys, log, count, state, h, hfold, hapart => by
    rw [List.foldlM_cons] at hfold
    obtain ⟨⟨store₁, count₁⟩, hone, hrest⟩ := bind_eq_ok.mp hfold
    have hone := inv_release h (persistOne_eq_ok hone) ((keepsIds_releases hrest).idsApart hapart)
    have hreleases := inv_releases hone hrest hapart
    rw [List.map_cons, List.append_cons]
    exact hreleases

/-- **One event of the scans**, with what it publishes. -/
theorem inv_scan (h : Inv scanCodec sys log) {scans : Scans} {state : Store × Scans}
    (hstep : Step scanCodec roots (sys.store, scans) state) (hapart : IdsApart state.1) :
    ∃ new, state.2.effects = scans.effects ++ new
      ∧ Inv scanCodec { sys with
        store := state.1 } (log ++ new.flatMap (effectEntries scanCodec)) := by
  cases hstep with
  | accept _ _ hsources _ _ heffects =>
    exact ⟨[], by simp [heffects], by simpa using inv_same h hsources⟩
  | control _ _ hsources _ _ heffects =>
    exact ⟨[], by simp [heffects], by simpa using inv_same h hsources⟩
  | page input _ root directory _ _ _ page names _ now store count observed hreleases
      hsources _ _ heffects =>
    have hstore : IdsApart store := by
      rw [IdsApart, ← hsources.torrents, ← hsources.dataSources]
      exact hapart
    have hpage := inv_same (inv_releases h hreleases hstore) hsources
    refine ⟨_, heffects, ?_⟩
    simpa [effectEntries] using hpage
  | hide input _ _ now hstore _ _ heffects =>
    refine ⟨_, heffects, ?_⟩
    rw [hstore]
    simpa [effectEntries] using inv_hideSources h input.rootName _ now
  | sweep input _ _ now hstore _ _ heffects =>
    refine ⟨_, heffects, ?_⟩
    rw [hstore]
    simpa [effectEntries] using inv_hideSources h input.rootName _ now

theorem keepsIds_scan {state state' : Store × Scans} (hstep : Step scanCodec roots state state') :
    KeepsIds state.1 state'.1 := by
  have hsame : ∀ {store store' : Store}, SameSources store store' →
      KeepsIds store store' := fun hsame =>
    ⟨fun row hrow => ⟨row, hsame.torrents ▸ hrow, rfl⟩, fun source hsource =>
      ⟨source, hsame.dataSources ▸ hsource, rfl⟩⟩
  have hhide : ∀ (rootName : String) (p : DataSourceRow → Bool) (now : ℤ),
      KeepsIds state.1 (DataScan.hideSources state.1 rootName p now) := by
    refine fun rootName p now => ⟨fun row hrow => ⟨row, hrow, rfl⟩, fun source hsource => ?_⟩
    refine ⟨_, List.mem_map_of_mem hsource, ?_⟩
    split <;> rfl
  cases hstep with
  | accept _ _ hsources => exact hsame hsources
  | control _ _ hsources => exact hsame hsources
  | page input _ root directory _ _ _ page names _ now store count observed hreleases hsources =>
    exact (keepsIds_releases hreleases).trans (hsame hsources)
  | hide input _ _ now hstore => rw [hstore]; exact hhide _ _ _
  | sweep input _ _ now hstore => rw [hstore]; exact hhide _ _ _

/-! ### Runs -/

theorem keepsIds_apply (world : World) (event : Event) :
    KeepsIds world.store (event.apply codec scanCodec roots world).store := by
  cases event with
  | manifest event => exact keepsIds_manifest codec world.sys event
  | scan event => exact keepsIds_scan (@step_apply scanCodec roots (world.sys.store,
    world.scans) event)

/-- **One event**, with what it publishes. -/
theorem inv_event {world : World} (h : Inv scanCodec world.sys world.log) (event : Event)
    (hapart : IdsApart (event.apply codec scanCodec roots world).store) :
    Inv scanCodec (event.apply codec scanCodec roots world).sys
      (event.apply codec scanCodec roots world).log := by
  cases event with
  | manifest event =>
    obtain ⟨new, hpublished, hinv⟩ := h.apply event hapart
    simpa [Event.apply, hpublished] using hinv
  | scan event =>
    obtain ⟨new, heffects, hinv⟩ := inv_scan h
      (@step_apply scanCodec roots (world.sys.store, world.scans) event) hapart
    simpa [Event.apply, heffects] using hinv

theorem inv_init : Inv scanCodec World.init.sys World.init.log := by
  refine ⟨Manifest.published_init, ?_, ?_, ?_, ?_, fun sourceId => ⟨?_, ?_⟩, ?_, ?_, ?_, ?_⟩ <;>
    simp [World.init, Manifest.Sys.init, Store.empty, UniqueKey, lookup, current]

theorem run_append (world : World) (events : List Event) (event : Event) :
    run codec scanCodec roots world (events ++ [event])
      = event.apply codec scanCodec roots (run codec scanCodec roots world events) := by
  rw [run, run, List.foldl_append]
  rfl

/-- **Any run** shows what has been published last. -/
theorem inv_run (events : List Event)
    (hapart : IdsApart (run codec scanCodec roots World.init events).store) :
    Inv scanCodec (run codec scanCodec roots World.init events).sys
      (run codec scanCodec roots World.init events).log := by
  induction events using List.reverseRecOn with
  | nil => exact inv_init
  | append_singleton events event ih =>
    rw [run_append] at hapart ⊢
    exact inv_event (ih ((keepsIds_apply _ event).idsApart hapart)) event hapart

end

end Sporos.Service.PublicationRuns
