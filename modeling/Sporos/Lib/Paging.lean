import Sporos.Lib.Lists

/-! # Pages

A list is read in pages by a key that tells its elements apart. A page has the first elements after
a cursor, and the key of its last element is the next cursor. What is before the cursor grows by one
page after the other (`before_next`), and a page that has all that is left completes it
(`before_append_page`). A client who follows the cursors of answers with a look-ahead gets all that
is left (`follow_lookAhead`). A window over a listing in any order ends as the page (`foldl_push`).
-/

namespace Sporos.Lib.Paging

open Sporos.Lib.Lists

variable {α κ : Type*} [LinearOrder κ] (key : α → κ)

/-- The elements after a cursor. -/
def after (cursor : Option κ) (l : List α) : List α := l.filter fun a => cursor.all (· < key a)

/-- The elements up to a cursor, in order. -/
def before (cursor : Option κ) (l : List α) : List α :=
  (l.insertionSort (ByKey key)).filter fun a => !cursor.all (· < key a)

/-- The first elements after a cursor, in order. -/
def page (limit : ℕ) (cursor : Option κ) (l : List α) : List α :=
  ((after key cursor l).insertionSort (ByKey key)).take limit

/-- One element more in a window of the first ones. -/
def push (limit : ℕ) (window : List α) (a : α) : List α :=
  let window := (window ++ [a]).insertionSort (ByKey key)
  if limit < window.length then window.dropLast else window

variable {key} {cursor : Option κ} {limit : ℕ} {l l' : List α} {a last : α}

/-! ### Before and after a cursor -/

theorem mem_after : a ∈ after key cursor l ↔ a ∈ l ∧ ∀ c ∈ cursor, c < key a := by
  simp [after, Option.all_eq_true]

@[simp] theorem after_none : after key none l = l := by simp [after]

@[simp] theorem before_none : before key none l = [] := by simp [before]

theorem mem_before : a ∈ before key cursor l ↔ a ∈ l ∧ ∃ c ∈ cursor, key a ≤ c := by
  cases cursor <;> simp [before]

theorem after_sublist (cursor : Option κ) (l : List α) : (after key cursor l).Sublist l :=
  List.filter_sublist

/-- Sorting and the choice of the elements after a cursor commute. -/
theorem insertionSort_after (hkey : (l.map key).Nodup) (cursor : Option κ) :
    (after key cursor l).insertionSort (ByKey key) =
      after key cursor (l.insertionSort (ByKey key)) := by
  have hinj : ∀ a ∈ after key cursor l, ∀ b ∈ after key cursor l, key a = key b → a = b :=
      fun a ha b hb =>
    List.inj_on_of_nodup_map hkey (mem_after.mp ha).1 (mem_after.mp hb).1
  calc (after key cursor l).insertionSort (ByKey key)
      = (after key cursor (l.insertionSort (ByKey key))).insertionSort (ByKey key) :=
        insertionSort_perm ((List.perm_insertionSort _ l).symm.filter _) hinj
    _ = after key cursor (l.insertionSort (ByKey key)) :=
        ((List.pairwise_insertionSort _ l).sublist (after_sublist _ _)).insertionSort_eq

/-- Where a condition holds from some point on, the others come first. -/
theorem filter_not_append_filter {p : α → Bool} :
    ∀ {s : List α}, s.Pairwise (fun a b => p a = true → p b = true) →
      s.filter (fun a => !p a) ++ s.filter p = s
  | [], _ => rfl
  | a :: s, h => by
    obtain ⟨ha, hs⟩ := List.pairwise_cons.mp h
    by_cases hp : p a = true
    · have hnone : s.filter (fun a => !p a) = [] :=
        List.filter_eq_nil_iff.mpr fun b hb => by simp [ha b hb hp]
      rw [List.filter_cons_of_neg (by simp [hp]), List.filter_cons_of_pos hp, hnone,
        List.nil_append, List.filter_eq_self.mpr fun b hb => ha b hb hp]
    · rw [List.filter_cons_of_pos (by simpa using hp), List.filter_cons_of_neg hp, List.cons_append,
        filter_not_append_filter hs]

/-- What is before a cursor and what is after it are the sorted list. -/
theorem before_append_after (hkey : (l.map key).Nodup) (cursor : Option κ) :
    before key cursor l ++ (after key cursor l).insertionSort (ByKey key) =
      l.insertionSort (ByKey key) := by
  rw [insertionSort_after hkey]
  refine filter_not_append_filter ((List.pairwise_insertionSort (ByKey key) l).imp
    fun {a b} hle ha => ?_)
  cases cursor with
  | none => rfl
  | some c => simpa using lt_of_lt_of_le (by simpa using ha) hle

theorem length_before_add (hkey : (l.map key).Nodup) (cursor : Option κ) :
    (before key cursor l).length + (after key cursor l).length = l.length := by
  have h := congrArg List.length (before_append_after hkey cursor)
  simpa using h

/-! ### Pages -/

theorem length_page : (page key limit cursor l).length = min limit (after key cursor l).length := by
  simp [page]

theorem mem_of_mem_page (h : a ∈ page key limit cursor l) : a ∈ after key cursor l :=
  mem_of_mem_take_insertionSort h

/-- **The next cursor** is behind the page, and before all that is left. -/
theorem before_next (hkey : (l.map key).Nodup)
    (hlast : (page key limit cursor l).getLast? = some last) :
    before key (some (key last)) l = before key cursor l ++ page key limit cursor l := by
  obtain ⟨head, hpage⟩ := List.getLast?_eq_some_iff.mp hlast
  have hsplit := before_append_after hkey cursor
  have hstrict := pairwise_lt_insertionSort hkey
  have hrest := (List.take_append_drop limit ((after key cursor l).insertionSort (ByKey key))).symm
  rw [← page] at hrest
  rw [hrest, ← List.append_assoc] at hsplit
  rw [← hsplit] at hstrict
  obtain ⟨hpages, -, hafter⟩ := List.pairwise_append.mp hstrict
  have hlastMem : last ∈ before key cursor l ++ page key limit cursor l := by simp [hpage]
  have hle : ∀ a ∈ before key cursor l ++ page key limit cursor l, key a ≤ key last := by
    rw [hpage, ← List.append_assoc] at hpages ⊢
    obtain ⟨-, -, hbefore⟩ := List.pairwise_append.mp hpages
    intro a ha
    rcases List.mem_append.mp ha with ha | ha
    · exact (hbefore a ha last (by simp)).le
    · rw [List.mem_singleton.mp ha]
  conv_lhs => unfold before
  rw [← hsplit, List.filter_append, List.filter_eq_self.mpr,
    List.filter_eq_nil_iff.mpr, List.append_nil]
  · intro a ha
    simpa using hafter last hlastMem a ha
  · intro a ha
    simpa using hle a ha

/-- **A page that has all that is left** completes the list. -/
theorem before_append_page (hkey : (l.map key).Nodup) (h : (after key cursor l).length ≤ limit) :
    before key cursor l ++ page key limit cursor l = l.insertionSort (ByKey key) := by
  rw [page, List.take_of_length_le (by simpa using h), before_append_after hkey]

/-- What is left of a page and after it. -/
theorem page_append_after (hkey : (l.map key).Nodup)
    (hlast : (page key limit cursor l).getLast? = some last) :
    page key limit cursor l ++ (after key (some (key last)) l).insertionSort (ByKey key)
      = (after key cursor l).insertionSort (ByKey key) := by
  have hnext := before_append_after hkey (some (key last))
  rw [before_next hkey hlast, ← before_append_after hkey cursor, List.append_assoc] at hnext
  exact List.append_cancel_left hnext

theorem page_perm (h : l.Perm l') (hkey : (l.map key).Nodup) (limit : ℕ) (cursor : Option κ) :
    page key limit cursor l = page key limit cursor l' := by
  rw [page, page, after, after, insertionSort_perm (h.filter _)]
  exact fun a ha b hb => List.inj_on_of_nodup_map hkey (mem_after.mp ha).1 (mem_after.mp hb).1

/-! ### Following the cursors -/

section

variable {β γ ε : Type*}

/-- What a request is answered: elements, and the cursor of the next request if there are more. -/
structure Answer (β γ : Type*) where
  items : List β
  nextCursor : Option γ

/-- All that a client gets who follows the cursors, if the last answer comes within a number of
requests. -/
def follow (request : Option γ → Except ε (Answer β γ)) : ℕ → Option γ → Option (List β)
  | 0, _ => none
  | n + 1, cursor =>
    match request cursor with
    | .error _ => none
    | .ok answer =>
      match answer.nextCursor with
      | none => some answer.items
      | some next => (follow request n (some next)).map (answer.items ++ ·)

/-- The answer from a page with one element more than the limit: the element is not shown, but there
are more if it is there. -/
def lookAhead (key : α → κ) (view : α → Option β) (encode : κ → γ) (limit : ℕ)
    (cursor : Option κ) (l : List α) : Answer β γ where
  items := ((page key (limit + 1) cursor l).take limit).filterMap view
  nextCursor := if limit < (page key (limit + 1) cursor l).length then
      ((page key (limit + 1) cursor l).take limit).getLast?.map (encode ∘ key)
    else none

theorem take_page : (page key (limit + 1) cursor l).take limit = page key limit cursor l := by
  rw [page, List.take_take, min_eq_left (Nat.le_succ limit), page]

/-- **Following the cursors** of answers with a look-ahead gives all that is after the first cursor,
in order, within one request for each element and one more. -/
theorem follow_lookAhead {view : α → Option β} {encode : κ → γ}
    {request : Option γ → Except ε (Answer β γ)} (hkey : (l.map key).Nodup) (hlimit : 1 ≤ limit)
    (hrequest : ∀ cursor : Option κ,
      request (cursor.map encode) = .ok (lookAhead key view encode limit cursor l)) :
    ∀ {n : ℕ} {cursor : Option κ}, (after key cursor l).length < n →
      follow request n (cursor.map encode)
        = some (((after key cursor l).insertionSort (ByKey key)).filterMap view)
  | n + 1, cursor, hn => by
    rw [follow, hrequest cursor]
    simp only [lookAhead, length_page, take_page]
    by_cases hmore : limit < (after key cursor l).length
    · -- the page is full: its last element is the next cursor, and fewer elements are left
      have hne : page key limit cursor l ≠ [] := by
        rw [← List.length_pos_iff, length_page]
        omega
      obtain ⟨last, hlast⟩ : ∃ last, (page key limit cursor l).getLast? = some last :=
        ⟨_, List.getLast?_eq_some_getLast hne⟩
      have hlength := congrArg List.length (page_append_after hkey hlast)
      rw [List.length_append, List.length_insertionSort, List.length_insertionSort] at hlength
      have hpos := List.length_pos_iff.mpr hne
      have hleft : (after key (some (key last)) l).length < n := by omega
      have ih := follow_lookAhead hkey hlimit hrequest hleft
      rw [Option.map_some] at ih
      rw [if_pos (by omega), hlast]
      simp only [Option.map_some, Function.comp_apply]
      rw [ih, Option.map_some, ← List.filterMap_append, page_append_after hkey hlast]
    · have hall : ((after key cursor l).insertionSort (ByKey key)).length ≤ limit := by
        rw [List.length_insertionSort]
        omega
      rw [if_neg (by omega)]
      simp only [page, List.take_of_length_le hall]

/-- Following the cursors gives the view of each element once, in order, and ends. -/
def Yields (request : Option γ → Except ε (Answer β γ)) (view : α → Option β) (r : α → α → Prop)
    (l : List α) : Prop :=
  ∃ rows : List α, rows.Perm l ∧ rows.Pairwise r ∧ (∀ a ∈ rows, (view a).isSome = true)
    ∧ ∀ n, l.length < n → follow request n none = some (rows.filterMap view)

theorem Yields.imp {request : Option γ → Except ε (Answer β γ)} {view : α → Option β}
    {r r' : α → α → Prop} (h : Yields request view r l) (hr : ∀ a b, r a b → r' a b) :
      Yields request view r' l := by
  obtain ⟨rows, hperm, hpairwise, hview, hfollow⟩ := h
  exact ⟨rows, hperm, hpairwise.imp (hr _ _), hview, hfollow⟩

theorem yields_lookAhead {view : α → Option β} {encode : κ → γ}
    {request : Option γ → Except ε (Answer β γ)} (hkey : (l.map key).Nodup) (hlimit : 1 ≤ limit)
    (hview : ∀ a ∈ l, (view a).isSome = true)
    (hrequest : ∀ cursor : Option κ,
    request (cursor.map encode) = .ok (lookAhead key view encode limit cursor l)) :
    Yields request view (fun a b => key a < key b) l := by
  have hperm := List.perm_insertionSort (ByKey key) l
  refine ⟨l.insertionSort (ByKey key), hperm, pairwise_lt_insertionSort hkey,
    fun a ha => hview a (hperm.mem_iff.mp ha), fun n hn => ?_⟩
  have hleft : (after key none l).length < n := by simpa using hn
  have hfollow := follow_lookAhead hkey hlimit hrequest hleft
  rwa [Option.map_none, after_none] at hfollow

end

/-! ### Windows -/

/-- An insertion in a list drops the last one of its first elements, or the new one. -/
theorem take_orderedInsert (r : α → α → Prop) [DecidableRel r] (a : α) :
    ∀ (n : ℕ) (s : List α), n ≤ s.length →
      (s.orderedInsert r a).take n = ((s.take n).orderedInsert r a).dropLast
  | 0, s, _ => by simp
  | n + 1, b :: s, h => by
    have hlength : n ≤ s.length := by simpa using h
    rw [List.take_succ_cons]
    by_cases hr : r a b
    · rw [List.orderedInsert_cons_of_le _ _ hr, List.orderedInsert_cons_of_le _ _ hr,
        List.take_succ_cons, List.dropLast_cons_of_ne_nil (by simp), List.dropLast_eq_take,
        List.length_cons, List.length_take, min_eq_left hlength, Nat.add_sub_cancel]
      cases n <;> simp [List.take_take]
    · have hne : (s.take n).orderedInsert r a ≠ [] :=
        List.ne_nil_of_length_pos (by simp [List.orderedInsert_length])
      rw [List.orderedInsert_of_not_le _ _ hr, List.orderedInsert_of_not_le _ _ hr,
        List.take_succ_cons, List.dropLast_cons_of_ne_nil hne, take_orderedInsert r a n s hlength]

theorem insertionSort_append_singleton (hkey : ((l ++ [a]).map key).Nodup) :
    (l ++ [a]).insertionSort (ByKey key) =
      (l.insertionSort (ByKey key)).orderedInsert (ByKey key) a := by
  rw [insertionSort_perm (List.perm_append_singleton a l) fun x hx y hy =>
    List.inj_on_of_nodup_map hkey hx hy,
    List.insertionSort_cons]

/-- **A step of a window.** -/
theorem push_take (hkey : ((l ++ [a]).map key).Nodup) :
    push key limit ((l.insertionSort (ByKey key)).take limit) a
      = ((l ++ [a]).insertionSort (ByKey key)).take limit := by
  have hwindow : (((l.insertionSort (ByKey key)).take limit ++ [a]).map key).Nodup := by
    have hsorted : (((l.insertionSort (ByKey key)) ++ [a]).map key).Nodup :=
      ((((List.perm_insertionSort (ByKey key) l).append_right [a]).map key).nodup_iff).mpr hkey
    exact hsorted.sublist (((List.take_sublist _ _).append (List.Sublist.refl _)).map key)
  have hsortedTake : ((l.insertionSort (ByKey key)).take limit).insertionSort (ByKey key)
      = (l.insertionSort (ByKey key)).take limit :=
    ((List.pairwise_insertionSort _ l).sublist (List.take_sublist _ _)).insertionSort_eq
  unfold push
  rw [insertionSort_append_singleton hwindow, insertionSort_append_singleton hkey, hsortedTake]
  dsimp only
  rw [List.orderedInsert_length, List.length_take, List.length_insertionSort]
  split_ifs with h
  · exact (take_orderedInsert _ a limit _ (by rw [List.length_insertionSort]; omega)).symm
  · have hfull : (l.insertionSort (ByKey key)).length ≤ limit := by
      rw [List.length_insertionSort]; omega
    rw [List.take_of_length_le hfull, List.take_of_length_le]
    rw [List.orderedInsert_length, List.length_insertionSort]
    omega

/-- **A window over a listing** holds the first elements of it. -/
theorem foldl_push (hkey : (l.map key).Nodup) (limit : ℕ) :
    l.foldl (push key limit) [] = (l.insertionSort (ByKey key)).take limit := by
  induction l using List.reverseRecOn with
  | nil => simp
  | append_singleton l a ih =>
    have hinit : (l.map key).Nodup := hkey.sublist ((List.sublist_append_left l [a]).map key)
    rw [List.foldl_append, ih hinit, List.foldl_cons, List.foldl_nil, push_take hkey]

end Sporos.Lib.Paging
