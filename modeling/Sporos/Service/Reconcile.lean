import Sporos.Lib.Lists
import Sporos.Service.QbitSync

/-! # Reconciliation page by page

`reconcile` of `qbit_sync.rs` asks qBittorrent for the torrents page by page, each page a window of
the torrents sorted by their hashes at the moment of the request, until a page is short. Between two
requests qBittorrent may add and remove torrents. -/

namespace Sporos.Service.Reconcile

open Sporos.Service.Tables
open Sporos.Service.Inventory
open Sporos.Service.Sources
open Sporos.Service.QbitProjection
open Sporos.Service.QbitSync
open Sporos.Lib.Lists
open Sporos.Lib.Table
open Sporos.Lib.Loop

/-- What qBittorrent has at one moment, by `sort=hash`. -/
structure Listing where
  torrents : List InventoryTorrent
  sorted : torrents.Pairwise fun a b => a.hash < b.hash

/-- The answer to a request. -/
def Listing.page (listing : Listing) (offset limit : ℕ) : List InventoryTorrent :=
  (listing.torrents.drop offset).take limit

/-- The listing has a torrent with the hash. -/
def Listing.Has (listing : Listing) (hash : String) : Prop :=
  ∃ torrent ∈ listing.torrents, torrent.hash = hash

/-- The number of torrents with a smaller hash. -/
def Listing.smaller (listing : Listing) (hash : String) : ℕ :=
  listing.torrents.countP fun torrent => torrent.hash < hash

/-- The batch sizes that the configuration accepts. -/
structure BatchSizes where
  inventory : ℕ
  database : ℕ
  inventory_pos : 0 < inventory
  database_pos : 0 < database
  inventory_le : inventory ≤ 500
  database_le : database ≤ 500

section

variable (codec : QbitCodec) (sizes : BatchSizes)

/-- The loop of `reconcile`, where `listings` is what qBittorrent has at the requests to come.
Without an answer, the attempt stops. -/
def reconcileFrom (generation : ℕ) (detectCompletions : Bool) (now : ℤ) :
    Store → ℕ → List Listing → Store × Bool
  | store, _, [] => (store, false)
  | store, offset, listing :: listings =>
    let page := listing.page offset sizes.inventory
    match page.forM validate with
    | .error _ => (store, false)
    | .ok () =>
      match commitBatches codec generation detectCompletions now store
        (chunks sizes.database (page.map InventoryTorrent.change)) with
      | (store, false) => (store, false)
      | (store, true) =>
        if page.length < sizes.inventory then
          match finishQbitReconcile store generation now with
          | .error _ => (store, false)
          | .ok store => (store, true)
        else reconcileFrom generation detectCompletions now store (offset + page.length) listings

/-- `reconcile`, and whether it has been completed. -/
def reconcile (store : Store) (listings : List Listing) (now : ℤ) : Store × Bool :=
  reconcileFrom codec sizes (store.inventory.generation + 1) store.inventory.baselineAt.isSome now
    store 0 listings

end

/-! ### The reconciliation as an attempt -/

/-- The batches of a reconciliation, and whether it comes to its end. -/
def batchesFrom (sizes : BatchSizes) : ℕ → List Listing → List (List InventoryTorrent) × Bool
  | _, [] => ([], false)
  | offset, listing :: listings =>
    let page := listing.page offset sizes.inventory
    match page.forM validate with
    | .error _ => ([], false)
    | .ok () =>
      if page.length < sizes.inventory then (chunks sizes.database page, true)
      else
        let rest := batchesFrom sizes (offset + page.length) listings
        (chunks sizes.database page ++ rest.1, rest.2)

/-- The attempt that a reconciliation makes. -/
def attempt (sizes : BatchSizes) (listings : List Listing) (now : ℤ) : Attempt :=
  .reconcile (batchesFrom sizes 0 listings).1 (batchesFrom sizes 0 listings).2 now

theorem commitBatches_append {codec : QbitCodec} {generation : ℕ}
    {detectCompletions : Bool} {now : ℤ} (store : Store)
    (batches batches' : List (List InventoryChange)) :
    commitBatches codec generation detectCompletions now store (batches ++ batches')
      = match commitBatches codec generation detectCompletions now store batches with
        | (store, false) => (store, false)
        | (store, true) => commitBatches codec generation detectCompletions now store batches' := by
  induction batches generalizing store with
  | nil => rfl
  | cons batch batches ih =>
    simp only [List.cons_append, commitBatches]
    split
    · rfl
    · exact ih _

/-- The end of an attempt behind its batches. -/
def finishing (generation : ℕ) (attempt : Attempt) : Store × Bool → Store × Bool
  | (store, false) => (store, false)
  | (store, true) =>
    match attempt.finish generation store with
    | none => (store, false)
    | some store => (store, true)

/-- **A reconciliation is an attempt** with the batches of its pages. -/
theorem reconcile_eq_run (codec : QbitCodec) (sizes : BatchSizes) (store : Store)
    (listings : List Listing) (now : ℤ) :
    reconcile codec sizes store listings now = (attempt sizes listings now).run codec store := by
  have hloop : ∀ (listings : List Listing) (store : Store) (offset generation : ℕ) (detect : Bool),
      reconcileFrom codec sizes generation detect now store offset listings
        = finishing generation (.reconcile (batchesFrom sizes offset listings).1
            (batchesFrom sizes offset listings).2 now)
          (commitBatches codec generation detect now store
            ((batchesFrom sizes offset listings).1.map (·.map InventoryTorrent.change))) := by
    intro listings
    induction listings with
    | nil => exact fun store offset generation detect => rfl
    | cons listing listings ih =>
      intro store offset generation detect
      rw [reconcileFrom, batchesFrom]
      simp only
      cases hvalid : (listing.page offset sizes.inventory).forM validate with
      | error e => rfl
      | ok u =>
        simp only [chunks_map]
        by_cases hshort : (listing.page offset sizes.inventory).length < sizes.inventory
        · simp only [if_pos hshort, finishing, Attempt.finish, if_true]
          split
          · rfl
          · rename_i store₁ hcommit
            cases finishQbitReconcile store₁ generation now <;> rfl
        · simp only [if_neg hshort, List.map_append, commitBatches_append, finishing]
          split
          · rfl
          · exact ih _ _ _ _
  exact hloop listings store 0 _ _

/-! ### The requests -/

/-- The listings at the requests of a reconciliation: all up to the one with a short page. -/
def requests (sizes : BatchSizes) : ℕ → List Listing → List Listing
  | _, [] => []
  | offset, listing :: listings =>
    let page := listing.page offset sizes.inventory
    listing :: if page.length < sizes.inventory then []
      else requests sizes (offset + page.length) listings

/-- qBittorrent has the torrent at every request. -/
def PresentThroughout (sizes : BatchSizes) (listings : List Listing) (hash : String) : Prop :=
  ∀ listing ∈ requests sizes 0 listings, listing.Has hash

/-- At some request, the number of smaller hashes is in the window that is asked for. -/
def InWindow (sizes : BatchSizes) (listings : List Listing) (hash : String) : Prop :=
  ∃ i listing, (requests sizes 0 listings)[i]? = some listing
    ∧ i * sizes.inventory ≤ listing.smaller hash ∧ listing.smaller hash < (i + 1) * sizes.inventory

section

variable {sizes : BatchSizes} {listings : List Listing} {hash : String}

theorem Listing.hash_mem_page_iff {listing : Listing} (hhas : listing.Has hash) (offset limit : ℕ) :
    (∃ torrent ∈ listing.page offset limit, torrent.hash = hash)
      ↔ offset ≤ listing.smaller hash ∧ listing.smaller hash < offset + limit := by
  obtain ⟨torrent, hmem, rfl⟩ := hhas
  have hwindow := mem_window_iff InventoryTorrent.hash listing.sorted hmem offset limit
  constructor
  · rintro ⟨other, hother, heq⟩
    have hother' : other ∈ listing.torrents := List.mem_of_mem_drop (List.mem_of_mem_take hother)
    have h := (mem_window_iff InventoryTorrent.hash listing.sorted hother' offset limit).mp hother
    rwa [heq] at h
  · exact fun h => ⟨torrent, hwindow.mpr h, rfl⟩

/-- A page that is not short has the size of a page. -/
theorem Listing.length_page {listing : Listing} {offset limit : ℕ}
    (h : ¬ (listing.page offset limit).length < limit) :
      (listing.page offset limit).length = limit := by
  have := List.length_take_le limit (listing.torrents.drop offset)
  unfold Listing.page at h ⊢
  omega

/-- A torrent that is there at all requests is in a batch if its place is in the window of some
request. -/
theorem mem_batchesFrom_iff (offset : ℕ) (hends : (batchesFrom sizes offset listings).2 = true)
    (hpresent : ∀ listing ∈ requests sizes offset listings, listing.Has hash) :
    (∃ torrent ∈ (batchesFrom sizes offset listings).1.flatten, torrent.hash = hash)
      ↔ ∃ i listing, (requests sizes offset listings)[i]? = some listing
        ∧ offset + i * sizes.inventory ≤ listing.smaller hash
        ∧ listing.smaller hash < offset + (i + 1) * sizes.inventory := by
  induction listings generalizing offset with
  | nil => cases hends
  | cons listing listings ih =>
    have hhas := hpresent listing (by simp [requests])
    rw [batchesFrom] at hends ⊢
    simp only at hends ⊢
    cases hvalid : (listing.page offset sizes.inventory).forM validate with
    | error e => simp [hvalid] at hends
    | ok u =>
      simp only [hvalid] at hends ⊢
      by_cases hshort : (listing.page offset sizes.inventory).length < sizes.inventory
      · rw [if_pos hshort, flatten_chunks sizes.database_pos, Listing.hash_mem_page_iff hhas]
        simp only [requests, if_pos hshort]
        constructor
        · exact fun h => ⟨0, listing, rfl, by simpa using h⟩
        · rintro ⟨i, listing', hi, h⟩
          obtain ⟨rfl, rfl⟩ : i = 0 ∧ listing = listing' := by
            cases i with
            | zero => simpa using hi
            | succ i => simp at hi
          simpa using h
      · have hlength := Listing.length_page hshort
        simp only [if_neg hshort] at hends
        have hrest : ∀ listing ∈ requests sizes (offset + sizes.inventory) listings,
            listing.Has hash := by
          intro listing' hmem
          refine hpresent listing' ?_
          simp only [requests, if_neg hshort]
          rw [hlength]
          exact List.mem_cons_of_mem _ hmem
        rw [hlength] at hends
        have ih := ih (offset + sizes.inventory) hends hrest
        simp only [if_neg hshort, List.flatten_append, List.mem_append, or_and_right,
          exists_or, flatten_chunks sizes.database_pos, requests]
        rw [hlength, Listing.hash_mem_page_iff hhas, ih]
        constructor
        · rintro (h | ⟨i, listing', hi, hle, hlt⟩)
          · exact ⟨0, listing, rfl, by simpa using h⟩
          · refine ⟨i + 1, listing', by simpa using hi, ?_, ?_⟩
            · rw [Nat.succ_mul]
              omega
            · rw [Nat.succ_mul]
              omega
        · rintro ⟨i, listing', hi, hle, hlt⟩
          cases i with
          | zero =>
            obtain rfl : listing = listing' := by simpa using hi
            exact .inl (by simpa using And.intro hle hlt)
          | succ i =>
            refine .inr ⟨i, listing', by simpa using hi, ?_, ?_⟩
            · rw [Nat.succ_mul] at hle
              omega
            · rw [Nat.succ_mul] at hlt
              omega

end

/-! ### What stays -/

section

variable {codec : QbitCodec} {sizes : BatchSizes} {listings : List Listing} {now : ℤ}
  {store store' : Store}

theorem attempt_changes (sizes : BatchSizes) (listings : List Listing) (now : ℤ) :
    (attempt sizes listings now).changes
      = (batchesFrom sizes 0 listings).1.flatten.map InventoryTorrent.change := by
  rw [Attempt.changes, attempt, Attempt.batches, List.map_flatten]

theorem upserts_attempt_iff (hash : String) :
    Upserts (attempt sizes listings now).changes hash
      ↔ ∃ torrent ∈ (batchesFrom sizes 0 listings).1.flatten, torrent.hash = hash := by
  rw [Upserts, attempt_changes]
  constructor
  · rintro ⟨delta, hmem⟩
    obtain ⟨torrent, htorrent, heq⟩ := List.mem_map.mp hmem
    exact ⟨torrent, htorrent, (InventoryChange.upsert.inj heq).1⟩
  · rintro ⟨torrent, htorrent, rfl⟩
    exact ⟨_, List.mem_map_of_mem htorrent⟩

/-- A reconciliation has no removals. -/
theorem mentions_attempt_iff (hash : String) :
    Mentions (attempt sizes listings now).changes hash
      ↔ Upserts (attempt sizes listings now).changes hash := by
  refine ⟨?_, Upserts.mentions⟩
  rintro ⟨change, hmem, rfl⟩
  rw [attempt_changes] at hmem
  obtain ⟨torrent, htorrent, rfl⟩ := List.mem_map.mp hmem
  exact (upserts_attempt_iff _).mpr ⟨torrent, htorrent, rfl⟩

theorem not_removesAgain_attempt (hash : String) :
    ¬ RemovesAgain (attempt sizes listings now).changes hash := by
  rintro ⟨-, hlast⟩
  have hmem := List.mem_of_mem_filter (List.mem_of_getLast? hlast)
  rw [attempt_changes] at hmem
  obtain ⟨torrent, -, heq⟩ := List.mem_map.mp hmem
  cases heq

/-- A reconciliation that is completed has come to its short page. -/
theorem batchesFrom_of_reconcile (h : reconcile codec sizes store listings now = (store', true)) :
    (batchesFrom sizes 0 listings).2 = true := by
  rw [reconcile_eq_run, Attempt.run, if_neg (by simp [attempt, Attempt.full])] at h
  simp only at h
  split at h
  · cases h
  · split at h
    · cases h
    · rename_i store₁ hfinish
      by_contra hends
      simp [attempt, Attempt.finish, hends] at hfinish

/-- **Reconciliation.** After any history of attempts, a completed reconciliation leaves every
torrent available that qBittorrent has at all of its requests if, and only if, the place of each
such torrent is in the window of one of the requests, or its row was available with the generation
of the reconciliation before. -/
theorem reconcile_keeps_iff (codec : QbitCodec) (sizes : BatchSizes) (history : List Attempt)
    (listings : List Listing) (now : ℤ) (store' : Store)
    (hrun : reconcile codec sizes (runAttempts codec Store.empty history) listings now
      = (store', true)) :
    (∀ hash, PresentThroughout sizes listings hash → Available store' hash)
      ↔ ∀ hash, PresentThroughout sizes listings hash →
        InWindow sizes listings hash
          ∨ ∃ row ∈ (runAttempts codec Store.empty history).torrents, row.qbitId = hash
            ∧ row.available = true
            ∧ row.lastSeenGeneration
              = (runAttempts codec Store.empty history).inventory.generation + 1 := by
  have hunique := unique_runAttempts codec history
  have hends := batchesFrom_of_reconcile hrun
  rw [reconcile_eq_run] at hrun
  refine forall_congr' fun hash => imp_congr_right fun hpresent => ?_
  have hbatches := mem_batchesFrom_iff 0 hends hpresent
  simp only [Nat.zero_add] at hbatches
  rw [available_run_full hunique rfl hrun, mentions_attempt_iff, upserts_attempt_iff, hbatches,
    available_with_iff_presence hunique]
  simp only [not_removesAgain_attempt, not_false_eq_true, and_true]
  exact or_congr_right' fun h => and_iff_right h

end

/-! ### Torrents that move to a smaller place -/

/-- The torrent with another hash. -/
def withHash (hash : String) : InventoryTorrent :=
  { downloadingTorrent with hash, infohashV1 := hash }

/-- The hash of the first torrent. -/
def hashA : String := "aaaaaaaaaaaaaaaaaaaaaaaaaaaaaaaaaaaaaaaa"

/-- The hash of the second torrent. -/
def hashB : String := "bbbbbbbbbbbbbbbbbbbbbbbbbbbbbbbbbbbbbbbb"

/-- The hash of the third torrent. -/
def hashC : String := "cccccccccccccccccccccccccccccccccccccccc"

/-- Batches of two torrents. -/
def pairSizes : BatchSizes := ⟨2, 200, by decide, by decide, by decide, by decide⟩

/-- Three torrents at the first request; the first of them is gone at the second request. -/
def shrinkingListings : List Listing :=
  [⟨[withHash hashA, withHash hashB, withHash hashC], by decide⟩,
    ⟨[withHash hashB, withHash hashC], by decide⟩]

theorem shrinkingListings_loses :
    (reconcile .ascii pairSizes Store.empty shrinkingListings 10).2 = true
      ∧ PresentThroughout pairSizes shrinkingListings hashC
      ∧ ¬ Available (reconcile .ascii pairSizes Store.empty shrinkingListings 10).1 hashC := by
  refine ⟨by decide +kernel, ?_, ?_⟩
  · unfold PresentThroughout Listing.Has
    decide +kernel
  · unfold Available
    decide +kernel

/-- Torrents that stay. -/
theorem reconcile_keeps_iff_steady :
    let listing : Listing := ⟨[withHash hashA, withHash hashB, withHash hashC], by decide⟩
    (reconcile .ascii pairSizes (runAttempts .ascii Store.empty []) [listing, listing] 10).2 = true
      ∧ ∀ hash, PresentThroughout pairSizes [listing, listing] hash →
        Available (reconcile .ascii pairSizes (runAttempts .ascii Store.empty [])
          [listing, listing] 10).1 hash := by
  intro listing
  have hdone : (reconcile .ascii pairSizes (runAttempts .ascii Store.empty [])
      [listing, listing] 10).2 = true := by
    decide +kernel
  refine ⟨hdone, (reconcile_keeps_iff .ascii pairSizes [] [listing, listing] 10 _
    (Prod.ext rfl hdone)).mpr fun hash hpresent => .inl ?_⟩
  obtain ⟨torrent, hmem, rfl⟩ := hpresent listing (by simp [requests])
  have hplaces : ∀ torrent ∈ listing.torrents, ∃ i : Fin 2,
      i.val * pairSizes.inventory ≤ listing.smaller torrent.hash
        ∧ listing.smaller torrent.hash < (i.val + 1) * pairSizes.inventory := by
    decide +kernel
  obtain ⟨i, hplace⟩ := hplaces torrent hmem
  refine ⟨i.val, listing, ?_, hplace⟩
  match i with
  | 0 => rfl
  | 1 => rfl

end Sporos.Service.Reconcile
