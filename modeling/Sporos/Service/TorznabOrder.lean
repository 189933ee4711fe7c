import Mathlib
import Sporos.Service.TorznabItems

/-! # The order of the elements of an item

The item that the children of a list leave behind (`Read`), one child after the other, and from it
the result that is emitted (`handed_item`). It is the result the children call for in every order
but those in which the text of a link comes behind the url of the enclosure (`emitted_iff`). -/

namespace Sporos.Service.TorznabOrder

open Sporos.Model.Matching
open Sporos.Lib.Lists Sporos.Lib.Loop
open Sporos.Lib.Trim (Blank trim_append_eq_iff trim_eq_nil_iff blank_append)
open Sporos.Matcher.Release (bytes isWhitespace trim)
open Sporos.Service.Search (TorznabResult)
open Sporos.Service.Torznab Sporos.Service.TorznabItems

section

variable {ε : Type} (tooLarge : ε → Bool)

/-- The download url after a child, when all of it fits. -/
def urlStep (url : Str) (child : Child ε) : Str :=
  match child.enclosureUrl tooLarge with
  | some value => value
  | none => url ++ (child.text tooLarge .link).getD []

/-- The address that the children leave. -/
def urlOf (children : List (Child ε)) : Str := children.foldl (urlStep tooLarge) []

/-- What an item holds after some children. -/
structure Read (done : List (Child ε)) (item : Item) : Prop where
  len_le : ∀ field, len (item.get field) ≤ maxFieldBytes
  title : item.title = textOf tooLarge .title done
  guid : item.guid = textOf tooLarge .guid done
  size : item.size = ((sizes tooLarge done).reduceOption).getLast?
  invalid : item.invalid = true ↔ none ∈ sizes tooLarge done
    ∨ maxFieldBytes < len (urlOf tooLarge done)
  url : len (urlOf tooLarge done) ≤ maxFieldBytes → item.downloadUrl = urlOf tooLarge done

end

variable {ε : Type} {tooLarge : ε → Bool}

@[simp]
theorem textOf_append (field : Field) (l l' : List (Child ε)) :
    textOf tooLarge field (l ++ l') = textOf tooLarge field l ++ textOf tooLarge field l' := by
  simp [textOf, texts]

theorem textOf_singleton (field : Field) (child : Child ε) :
    textOf tooLarge field [child] = (child.text tooLarge field).getD [] := by
  simp only [textOf, texts, List.filterMap_cons, List.filterMap_nil]
  cases child.text tooLarge field with
  | none => rfl
  | some value => simp

theorem sizes_concat (done : List (Child ε)) (child : Child ε) :
    sizes tooLarge (done ++ [child]) = sizes tooLarge done ++ (child.size tooLarge).toList := by
  simp only [sizes, List.filterMap_append, List.filterMap_cons, List.filterMap_nil]
  cases child.size tooLarge <;> rfl

theorem urlOf_concat (done : List (Child ε)) (child : Child ε) :
    urlOf tooLarge (done ++ [child]) = urlStep tooLarge (urlOf tooLarge done) child := by
  simp [urlOf]

theorem size_of_enclosureUrl {child : Child ε} {url : Str}
    (h : child.enclosureUrl tooLarge = some url) : child.size tooLarge = none := by
  cases child with
  | element tag pieces => rfl
  | loose piece => rfl
  | empty tag =>
    simp only [Child.enclosureUrl, Option.ite_none_right_eq_some] at h
    have hname : ¬(tag.localName = "attr".toList ∧
        (attributeValue tooLarge tag "name").toOption.join = some "size".toList) := by
      rw [h.1]
      exact fun ha => absurd ha.1 (by decide)
    rw [Child.size, if_neg hname]

/-- A child that says nothing. -/
theorem Read.same {done done' : List (Child ε)} {item : Item} (h : Read tooLarge done item)
    (htexts : ∀ field, textOf tooLarge field done' = textOf tooLarge field done)
    (hsizes : sizes tooLarge done' = sizes tooLarge done)
    (hurl : urlOf tooLarge done' = urlOf tooLarge done) : Read tooLarge done' item := by
  refine ⟨h.len_le, ?_, ?_, ?_, ?_, ?_⟩
  · rw [htexts]; exact h.title
  · rw [htexts]; exact h.guid
  · rw [hsizes]; exact h.size
  · rw [hsizes, hurl]; exact h.invalid
  · rw [hurl]; exact h.url

/-- An element that fills a field, when the title and the guid fit. -/
theorem Read.filled {done : List (Child ε)} {item item' : Item} {tag : Tag ε}
    {pieces : List (Piece ε)} {field : Field} (h : Read tooLarge done item)
    (hfield : fieldOf tag.localName = some field)
    (hfill : Filled field item item' (pieces.flatMap (Piece.content tooLarge)))
    (htext : ∀ field, len (textOf tooLarge field (done ++ [.element tag pieces])) ≤ maxFieldBytes) :
    Read tooLarge (done ++ [.element tag pieces]) item' := by
  have hlen_le : ∀ other, len (item'.get other) ≤ maxFieldBytes := fun other => by
    by_cases hne : other = field
    · rw [hne]; exact hfill.within
    · rw [hfill.others other hne]; exact h.len_le other
  have htexts : ∀ other, textOf tooLarge other (done ++ [.element tag pieces]) =
      if other = field then textOf tooLarge other done ++ pieces.flatMap (Piece.content tooLarge)
      else textOf tooLarge other done := fun other => by
    rw [textOf_append, textOf_singleton, Child.text, hfield]
    by_cases hne : other = field
    · simp [hne]
    · simp [hne, Ne.symm hne]
  have hsizes : sizes tooLarge (done ++ [.element tag pieces]) = sizes tooLarge done := by
    simp [sizes_concat, Child.size]
  have hurl : urlOf tooLarge (done ++ [.element tag pieces]) =
      if field = .link then urlOf tooLarge done ++ pieces.flatMap (Piece.content tooLarge)
      else urlOf tooLarge done := by
    have hnone : (Child.element tag pieces).enclosureUrl tooLarge = none := rfl
    rw [urlOf_concat, urlStep, hnone, Child.text, hfield]
    by_cases hne : field = .link
    · simp [hne]
    · simp [hne]
  have hfits := htext field
  rw [htexts, if_pos rfl] at hfits
  cases field with
  | title =>
    rw [← h.title] at hfits
    refine ⟨hlen_le, ?_, ?_, ?_, ?_, ?_⟩
    · rw [htexts, if_pos rfl, ← h.title]; exact hfill.value hfits
    · rw [htexts, if_neg (by decide), ← h.guid]; exact hfill.others .guid (by decide)
    · rw [hsizes, ← h.size]; exact hfill.size
    · rw [hsizes, hurl, if_neg (by decide), ← h.invalid, hfill.invalid]
      exact or_iff_left (not_lt.mpr hfits)
    · rw [hurl, if_neg (by decide)]
      intro hlen
      rw [← h.url hlen]; exact hfill.others .link (by decide)
  | guid =>
    rw [← h.guid] at hfits
    refine ⟨hlen_le, ?_, ?_, ?_, ?_, ?_⟩
    · rw [htexts, if_neg (by decide), ← h.title]; exact hfill.others .title (by decide)
    · rw [htexts, if_pos rfl, ← h.guid]; exact hfill.value hfits
    · rw [hsizes, ← h.size]; exact hfill.size
    · rw [hsizes, hurl, if_neg (by decide), ← h.invalid, hfill.invalid]
      exact or_iff_left (not_lt.mpr hfits)
    · rw [hurl, if_neg (by decide)]
      intro hlen
      rw [← h.url hlen]; exact hfill.others .link (by decide)
  | link =>
    have hlonger : len (urlOf tooLarge done ++ pieces.flatMap (Piece.content tooLarge)) =
      len (urlOf tooLarge done) + len (pieces.flatMap (Piece.content tooLarge)) := len_append _ _
    refine ⟨hlen_le, ?_, ?_, ?_, ?_, ?_⟩
    · rw [htexts, if_neg (by decide), ← h.title]; exact hfill.others .title (by decide)
    · rw [htexts, if_neg (by decide), ← h.guid]; exact hfill.others .guid (by decide)
    · rw [hsizes, ← h.size]; exact hfill.size
    · rw [hsizes, hurl, if_pos rfl, hfill.invalid, h.invalid]
      by_cases hlen : len (urlOf tooLarge done) ≤ maxFieldBytes
      · have hget : item.get .link = urlOf tooLarge done := h.url hlen
        simp only [hget, not_lt.mpr hlen, or_false]
      · have hfull : maxFieldBytes < len (urlOf tooLarge done) := not_le.mp hlen
        have hfuller : maxFieldBytes <
          len (urlOf tooLarge done ++ pieces.flatMap (Piece.content tooLarge)) := by omega
        simp only [hfull, hfuller, or_true, true_or]
    · rw [hurl, if_pos rfl]
      intro hlen
      have hurl' := h.url (by omega)
      rw [← hurl'] at hlen ⊢
      exact hfill.value hlen

/-- An empty element, when the url before an enclosure fits. -/
theorem Read.empty {done : List (Child ε)} {item : Item} {tag : Tag ε} (h : Read tooLarge done item)
    (hurl : ∀ url, (Child.empty tag).enclosureUrl tooLarge = some url →
      len url ≤ maxFieldBytes ∧ len (urlOf tooLarge done) ≤ maxFieldBytes) :
    Read tooLarge (done ++ [.empty tag]) (onEmpty tooLarge item (.empty tag)) := by
  have htexts : ∀ field, textOf tooLarge field (done ++ [.empty tag]) =
      textOf tooLarge field done :=
    fun field => by simp [textOf_singleton, Child.text]
  have hstep : urlOf tooLarge (done ++ [.empty tag]) = _ := urlOf_concat done (.empty tag)
  have hsizes : sizes tooLarge (done ++ [.empty tag]) = _ := sizes_concat done (.empty tag)
  cases henclosure : (Child.empty tag).enclosureUrl tooLarge with
  | some url =>
    obtain ⟨hlen, hbefore⟩ := hurl url henclosure
    have hitem : onEmpty tooLarge item (.empty tag) = { item with downloadUrl := url } := by
      simp [onEmpty, henclosure, Item.setUrl, hlen]
    simp only [urlStep, henclosure] at hstep
    rw [size_of_enclosureUrl henclosure, Option.toList_none, List.append_nil] at hsizes
    rw [hitem]
    refine ⟨fun field => ?_, ?_, ?_, ?_, ?_, fun _ => hstep.symm⟩
    · cases field with
      | link => exact hlen
      | title => exact h.len_le .title
      | guid => exact h.len_le .guid
    · rw [htexts]; exact h.title
    · rw [htexts]; exact h.guid
    · rw [hsizes]; exact h.size
    · rw [hsizes, hstep, or_iff_left (not_lt.mpr hlen), h.invalid, or_iff_left (not_lt.mpr hbefore)]
  | none =>
    have hsame : urlOf tooLarge (done ++ [.empty tag]) = urlOf tooLarge done := by
      rw [hstep, urlStep, henclosure]
      simp [Child.text]
    cases hsize : (Child.empty tag).size tooLarge with
    | none =>
      have hitem : onEmpty tooLarge item (.empty tag) = item := by simp [onEmpty, henclosure, hsize]
      rw [hitem]
      exact h.same htexts (by rw [hsizes, hsize, Option.toList_none, List.append_nil]) hsame
    | some value =>
      rw [hsize] at hsizes
      cases value with
      | none =>
        have hitem : onEmpty tooLarge item (.empty tag) = { item with invalid := true } := by
          simp [onEmpty, henclosure, hsize]
        rw [hitem]
        refine ⟨fun field => by simpa using h.len_le field, ?_, ?_, ?_, ?_, ?_⟩
        · rw [htexts]; exact h.title
        · rw [htexts]; exact h.guid
        · rw [hsizes]; simpa [List.reduceOption] using h.size
        · rw [hsizes]; simp
        · rw [hsame]; exact h.url
      | some n =>
        have hitem : onEmpty tooLarge item (.empty tag) = { item with size := some n } := by
          simp [onEmpty, henclosure, hsize]
        rw [hitem]
        refine ⟨fun field => ?_, ?_, ?_, ?_, ?_, ?_⟩
        · cases field with
          | title => exact h.len_le .title
          | guid => exact h.len_le .guid
          | link => exact h.len_le .link
        · rw [htexts]; exact h.title
        · rw [htexts]; exact h.guid
        · rw [hsizes]; simp [List.reduceOption]
        · rw [hsizes, hsame, List.mem_append]; simpa using h.invalid
        · rw [hsame]; exact h.url

/-- One more child: its texts fit, and so does the url before an enclosure. -/
theorem Read.child {done : List (Child ε)} {item item' : Item} {child : Child ε}
    (h : Read tooLarge done item) (hdone : Done tooLarge item item' child)
    (htext : ∀ field, len (textOf tooLarge field (done ++ [child])) ≤ maxFieldBytes)
    (hurl : ∀ url, child.enclosureUrl tooLarge = some url →
      len url ≤ maxFieldBytes ∧ len (urlOf tooLarge done) ≤ maxFieldBytes) :
    Read tooLarge (done ++ [child]) item' := by
  cases child with
  | loose piece =>
    obtain rfl : item' = item := hdone
    refine h.same (fun field => ?_) ?_ ?_
    · simp [textOf_singleton, Child.text]
    · simp [sizes_concat, Child.size]
    · simp [urlOf_concat, urlStep, Child.enclosureUrl, Child.text]
  | element tag pieces =>
    cases hfield : fieldOf tag.localName with
    | none =>
      simp only [Done, DonePieces, hfield] at hdone
      rw [hdone]
      refine h.same (fun field => ?_) ?_ ?_
      · simp [textOf_singleton, Child.text, hfield]
      · simp [sizes_concat, Child.size]
      · simp [urlOf_concat, urlStep, Child.enclosureUrl, Child.text, hfield]
    | some field =>
      simp only [Done, DonePieces, hfield] at hdone
      exact h.filled hfield hdone htext
  | empty tag =>
    obtain rfl : item' = onEmpty tooLarge item (.empty tag) := hdone
    exact h.empty hurl

/-! ### The whole item -/

theorem foldl_urlStep : ∀ (children : List (Child ε)) (url : Str), urls tooLarge children = [] →
    children.foldl (urlStep tooLarge) url = url ++ textOf tooLarge .link children
  | [], url, _ => by simp [textOf, texts]
  | child :: children, url, h => by
    have hnone : child.enclosureUrl tooLarge = none := by
      by_contra hne
      obtain ⟨value, hvalue⟩ := Option.ne_none_iff_exists'.mp hne
      simp [urls, hvalue] at h
    have hrest : urls tooLarge children = [] := by simpa [urls, List.filterMap_cons, hnone] using h
    rw [List.foldl_cons, foldl_urlStep children _ hrest, urlStep, hnone, List.append_assoc,
      ← textOf_singleton, ← textOf_append, List.singleton_append]

theorem urlOf_of_urls_nil {children : List (Child ε)} (h : urls tooLarge children = []) :
    urlOf tooLarge children = textOf tooLarge .link children := foldl_urlStep children [] h

theorem urlOf_split {before after : List (Child ε)} {child : Child ε} {url : Str}
    (hurl : child.enclosureUrl tooLarge = some url) (hafter : urls tooLarge after = []) :
    urlOf tooLarge (before ++ child :: after) = url ++ textOf tooLarge .link after := by
  rw [urlOf, List.foldl_append, List.foldl_cons, foldl_urlStep after _ hafter, urlStep, hurl]

/-- The only url of an item. -/
theorem urls_split {before after : List (Child ε)} {child : Child ε} {url : Str}
    (hitem : IsItem tooLarge (before ++ child :: after))
    (hurl : child.enclosureUrl tooLarge = some url) :
    urls tooLarge before = [] ∧ urls tooLarge after = []
      ∧ urls tooLarge (before ++ child :: after) = [url] := by
  have hsplit : urls tooLarge (before ++ child :: after) =
      urls tooLarge before ++ url :: urls tooLarge after := by
    simp [urls, hurl]
  have honce := hitem.url_once
  rw [hsplit, List.length_append, List.length_cons] at honce
  have hbefore : urls tooLarge before = [] := List.length_eq_zero_iff.mp (by omega)
  have hafter : urls tooLarge after = [] := List.length_eq_zero_iff.mp (by omega)
  exact ⟨hbefore, hafter, by rw [hsplit, hbefore, hafter]; rfl⟩

theorem Read.next {done rest : List (Child ε)} {item item' : Item} {child : Child ε}
    (h : Read tooLarge done item) (hitem : IsItem tooLarge (done ++ child :: rest))
    (hdone : Done tooLarge item item' child) : Read tooLarge (done ++ [child]) item' := by
  have htext : ∀ field, len (textOf tooLarge field (done ++ [child])) ≤ maxFieldBytes :=
      fun field => by
    have hall := hitem.text_len field
    rw [← List.singleton_append, ← List.append_assoc, textOf_append, len_append] at hall
    omega
  refine h.child hdone htext fun url hurl => ?_
  obtain ⟨hbefore, -, hall⟩ := urls_split hitem hurl
  refine ⟨hitem.url_len url (by rw [hall]; simp), ?_⟩
  rw [urlOf_of_urls_nil hbefore]
  have hlink := htext .link
  rw [textOf_append, len_append] at hlink
  omega

section

variable (resultLimit : ℕ) (emit : List TorznabResult → TorznabResult → Except String Unit)

/-- The children pass, and leave the item that they describe. -/
theorem run_children : ∀ (rest done : List (Child ε)) {s : Loop} {item : Item}, Within s item →
    Read tooLarge done item → IsItem tooLarge (done ++ rest) →
      (∀ child ∈ rest, child.accepted tooLarge s.depth = true) →
    ∃ item', Read tooLarge (done ++ rest) item' ∧
      (rest.flatMap Child.events).foldlM (step tooLarge resultLimit emit) s = .ok { s with
        item := some item' }
  | [], done, s, item, hs, hread, _, _ => ⟨item, by simpa using hread, by rw [← hs.eq]; rfl⟩
  | child :: rest, done, s, item, hs, hread, hitem, haccept => by
    obtain ⟨item₁, hdone, hrun⟩ := run_child resultLimit emit hs child
      (fun tag pieces he => hitem.noItem tag pieces (by rw [he]; simp)) (haccept child (by simp))
    have hnext := hread.next hitem hdone
    obtain ⟨item', hread', hrest⟩ :=
      run_children rest (done ++ [child]) (s := { s with item := some item₁ })
      ⟨rfl, hs.field, hnext.len_le⟩ hnext (by simpa using hitem)
      (fun child hchild => haccept child (List.mem_cons_of_mem _ hchild))
    refine ⟨item', by simpa using hread', ?_⟩
    rw [List.flatMap_cons, List.foldlM_append, hrun]
    exact hrest

/-- A child that does not pass ends the run. -/
theorem run_children_rejected :
    ∀ (rest done : List (Child ε)) {s : Loop} {item : Item}, Within s item →
    Read tooLarge done item → IsItem tooLarge (done ++ rest) →
      (∃ child ∈ rest, child.accepted tooLarge s.depth = false) →
    Fails s ((rest.flatMap Child.events).foldlM (step tooLarge resultLimit emit) s)
  | [], _, _, _, _, _, _, hreject => by
    obtain ⟨child, hchild, -⟩ := hreject
    cases hchild
  | child :: rest, done, s, item, hs, hread, hitem, hreject => by
    have hname : ∀ tag pieces, child = .element tag pieces → tag.localName ≠ "item".toList :=
      fun tag pieces he => hitem.noItem tag pieces (by rw [he]; simp)
    rw [List.flatMap_cons, List.foldlM_append]
    by_cases haccept : child.accepted tooLarge s.depth = true
    · obtain ⟨item₁, hdone, hrun⟩ := run_child resultLimit emit hs child hname haccept
      have hnext := hread.next hitem hdone
      rw [hrun]
      refine run_children_rejected rest (done ++ [child]) (s := { s with item := some item₁ })
        ⟨rfl, hs.field, hnext.len_le⟩ hnext (by simpa using hitem) ?_
      obtain ⟨bad, hbad, hno⟩ := hreject
      rcases List.mem_cons.mp hbad with rfl | hbad
      · rw [haccept] at hno
        cases hno
      · exact ⟨bad, hbad, hno⟩
    · obtain ⟨e, he⟩ := run_child_rejected resultLimit emit hs child hname
        (Bool.not_eq_true _ ▸ haccept)
      rw [he]
      exact ⟨e, rfl⟩

/-- The results handed to `emit` so far. -/
def handed : Except (Outcome ε) Loop → List TorznabResult
  | .error outcome => outcome.log
  | .ok s => s.log

variable (tooLarge) in
/-- The end of the item hands over what it holds. -/
theorem handed_end {s : Loop} {item : Item} (hitem : s.item = some item) :
    handed (step tooLarge resultLimit emit s (.ok (.endTag "item".toList))) =
      s.log ++ item.finish.toList := by
  have hfield : fieldOf "item".toList = none := by decide
  simp only [step, Loop.close, hfield, Option.isSome_none, Bool.false_eq_true,
    if_false, if_true, hitem, Option.bind_some]
  cases item.finish with
  | none => simp [bind, Except.bind, pure, Except.pure, handed]
  | some result =>
    simp only [Option.toList_some]
    cases emit s.log result with
    | error message => rfl
    | ok u =>
      simp only
      split_ifs <;> rfl

/-- What comes of an item. -/
def computed (tooLarge : ε → Bool) (depth : ℕ) (children : List (Child ε)) : Option TorznabResult :=
  if Dropped tooLarge depth children ∨ maxFieldBytes < len (urlOf tooLarge children) ∨
      Blank isWhitespace (urlOf tooLarge children) then none
  else
    let guid := trim (textOf tooLarge .guid children)
    some ⟨String.ofList (trim (textOf tooLarge .title children)),
      if guid = [] then none else some (String.ofList guid),
      String.ofList (trim (urlOf tooLarge children)), ((sizes tooLarge children).head?).join⟩

theorem trim_eq_nil {s : Str} : trim s = [] ↔ Blank isWhitespace s := trim_eq_nil_iff

theorem finish_read {children : List (Child ε)} {item : Item} {depth : ℕ}
    (h : Read tooLarge children item) (hitem : IsItem tooLarge children)
    (hdepth : depth + 1 ≤ maxDepth)
    (haccept : ∀ child ∈ children, child.accepted tooLarge (depth + 1) = true) :
    item.finish = computed tooLarge depth children := by
  have hdropped : Dropped tooLarge depth children ↔
      Blank isWhitespace (textOf tooLarge .title children) ∨ none ∈ sizes tooLarge children := by
    unfold Dropped
    refine ⟨?_, fun h => .inr (.inr h)⟩
    rintro (hdeep | ⟨child, hchild, hno⟩ | h)
    · omega
    · rw [haccept child hchild] at hno
      cases hno
    · exact h
  unfold Item.finish computed
  simp only [hdropped, h.invalid, h.title, h.guid, trim_eq_nil]
  by_cases hfull : maxFieldBytes < len (urlOf tooLarge children)
  · simp [hfull]
  · have hurl := h.url (not_lt.mp hfull)
    by_cases hsize : none ∈ sizes tooLarge children
    · simp [hsize]
    · have honce : item.size = (sizes tooLarge children).head?.join := by
        rw [h.size]
        have hlen := hitem.size_once
        match hl : sizes tooLarge children with
        | [] => rfl
        | [none] => simp [hl] at hsize
        | [some n] => rfl
        | a :: b :: rest => simp [hl] at hlen
      simp only [hurl, hfull, hsize, honce, false_or, or_false]

/-- **An item** hands over what its children say. -/
theorem handed_item {children : List (Child ε)} (hitem : IsItem tooLarge children) {s : Loop}
    (hfield : s.field = none) :
    handed ((itemEvents children).foldlM (step tooLarge resultLimit emit) s) =
      s.log ++ (computed tooLarge s.depth children).toList := by
  rw [itemEvents, List.cons_append, List.foldlM_cons]
  by_cases hdepth : s.depth + 1 ≤ maxDepth
  · have hstart : step tooLarge resultLimit emit s (.ok (.start ⟨"item".toList, []⟩)) =
        .ok { s with depth := s.depth + 1, item := some .default } := by
      simp [step, not_lt.mpr hdepth]
    have hwithin : Within { s with depth := s.depth + 1, item := some Item.default } .default :=
      ⟨rfl, hfield, fun field => by cases field <;> decide⟩
    have hread : Read tooLarge ([] : List (Child ε)) .default :=
      ⟨fun field => by cases field <;> decide, rfl, rfl, rfl, by simp [Item.default, sizes,
        urlOf, len, bytes], fun _ => rfl⟩
    rw [hstart]
    change handed ((children.flatMap Child.events
      ++ [Except.ok (Event.endTag "item".toList)]).foldlM
      (step tooLarge resultLimit emit) _) = _
    rw [List.foldlM_append]
    by_cases haccept : ∀ child ∈ children, child.accepted tooLarge (s.depth + 1) = true
    · obtain ⟨item, hread, hrun⟩ := run_children resultLimit emit children [] hwithin hread
        hitem haccept
      rw [List.nil_append] at hread
      rw [hrun, ← finish_read hread hitem hdepth haccept]
      have hend := handed_end tooLarge resultLimit emit
        (s := { s with depth := s.depth + 1, item := some item }) rfl
      rw [← hend]
      change handed (List.foldlM (step tooLarge resultLimit emit) _ [Except.ok
        (Event.endTag "item".toList)]) = _
      rw [List.foldlM_cons]
      change handed (_ >>= pure) = _
      rw [bind_pure]
    · push Not at haccept
      obtain ⟨child, hchild, hno⟩ := haccept
      obtain ⟨e, he⟩ := run_children_rejected resultLimit emit children [] hwithin hread
        hitem ⟨child, hchild, by simpa using hno⟩
      have hnone : computed tooLarge s.depth children = none :=
        if_pos (.inl (.inr (.inl ⟨child, hchild, by simpa using hno⟩)))
      rw [he, hnone, Option.toList_none, List.append_nil]
      rfl
  · have hnone : computed tooLarge s.depth children = none :=
      if_pos (.inl (.inl (not_le.mp hdepth)))
    rw [hnone, Option.toList_none, List.append_nil]
    simp only [step, if_pos (not_le.mp hdepth)]
    rfl

end

/-! ### The order of the children -/

theorem isItem_perm {children children' : List (Child ε)} (h : IsItem tooLarge children)
    (hperm : children'.Perm children) : IsItem tooLarge children' := by
  have htexts : ∀ field, texts tooLarge field children = texts tooLarge field children' :=
    fun field => filterMap_perm hperm.symm (h.text_once field)
  have hurls : urls tooLarge children = urls tooLarge children' :=
    filterMap_perm hperm.symm h.url_once
  have hsizes : sizes tooLarge children = sizes tooLarge children' :=
    filterMap_perm hperm.symm h.size_once
  refine ⟨fun tag pieces hmem => h.noItem tag pieces (hperm.mem_iff.mp hmem), fun field => ?_, ?_,
    ?_, fun field => ?_, ?_⟩
  · rw [← htexts]; exact h.text_once field
  · rw [← hurls]; exact h.url_once
  · rw [← hsizes]; exact h.size_once
  · rw [textOf, ← htexts]; exact h.text_len field
  · rw [← hurls]; exact h.url_len

/-- What the children call for does not depend on their order. -/
theorem expected_perm {children children' : List (Child ε)} (h : IsItem tooLarge children)
    (hperm : children'.Perm children) (depth : ℕ) :
    expected tooLarge depth children' = expected tooLarge depth children := by
  have htexts : ∀ field, textOf tooLarge field children' = textOf tooLarge field children :=
    fun field => congrArg List.flatten (filterMap_perm hperm.symm (h.text_once field)).symm
  have hurls : urls tooLarge children' = urls tooLarge children :=
    (filterMap_perm hperm.symm h.url_once).symm
  have hsizes : sizes tooLarge children' = sizes tooLarge children :=
    (filterMap_perm hperm.symm h.size_once).symm
  have hurl : downloadUrl tooLarge children' = downloadUrl tooLarge children := by
    rw [downloadUrl, downloadUrl, hurls, htexts]
  have hdropped : Dropped tooLarge depth children' ↔ Dropped tooLarge depth children := by
    unfold Dropped
    rw [htexts, hsizes]
    simp only [hperm.mem_iff]
  unfold expected
  simp only [hdropped, hurl, htexts, hsizes]

/-- The url that an enclosure and the link behind it leave, and the url of the enclosure. -/
theorem computed_eq_expected_iff {children : List (Child ε)}
    (h : IsItem tooLarge children) (depth : ℕ) :
    computed tooLarge depth children = expected tooLarge depth children
      ↔ InOrder tooLarge depth children := by
  unfold InOrder
  by_cases hdropped : Dropped tooLarge depth children
  · simp [computed, expected, hdropped]
  by_cases hurls : urls tooLarge children = []
  · -- no enclosure: the url is the text of the link
    have hurl : urlOf tooLarge children = downloadUrl tooLarge children := by
      rw [urlOf_of_urls_nil hurls, downloadUrl, hurls]
      rfl
    have hlen : ¬maxFieldBytes < len (downloadUrl tooLarge children) := by
      rw [downloadUrl, hurls]
      exact not_lt.mpr (h.text_len .link)
    refine iff_of_true ?_ (.inr fun before child after url hsplit hsome => ?_)
    · simp only [computed, expected, hurl, hlen, false_or]
    · subst hsplit
      rw [(urls_split h hsome).2.2] at hurls
      cases hurls
  · obtain ⟨url, hmem⟩ := List.exists_mem_of_ne_nil _ hurls
    obtain ⟨child, hchild, hsome⟩ := List.mem_filterMap.mp hmem
    obtain ⟨before, after, hsplit⟩ := List.append_of_mem hchild
    have hone : ∀ before' child' after' url', children = before' ++ child' :: after' →
        child'.enclosureUrl tooLarge = some url' →
        urls tooLarge children = [url'] ∧ urlOf tooLarge children =
          url' ++ textOf tooLarge .link after' := by
      rintro before' child' after' url' rfl hsome'
      obtain ⟨-, hafter, hall⟩ := urls_split h hsome'
      exact ⟨hall, urlOf_split hsome' hafter⟩
    obtain ⟨hall, hurl⟩ := hone before child after url hsplit hsome
    have hdownload : downloadUrl tooLarge children = url := by rw [downloadUrl, hall]; rfl
    have hcondition : (∀ before child after url', children = before ++ child :: after →
        child.enclosureUrl tooLarge = some url' →
        (Blank isWhitespace (textOf tooLarge .link after) ∧
            len url' + len (textOf tooLarge .link after) ≤ maxFieldBytes) ∨
          (Blank isWhitespace url' ∧
            (Blank isWhitespace (textOf tooLarge .link after) ∨
              maxFieldBytes < len url' + len (textOf tooLarge .link after)))) ↔
        (Blank isWhitespace (textOf tooLarge .link after) ∧
            len url + len (textOf tooLarge .link after) ≤ maxFieldBytes) ∨
          (Blank isWhitespace url ∧
            (Blank isWhitespace (textOf tooLarge .link after) ∨
              maxFieldBytes < len url + len (textOf tooLarge .link after))) := by
      refine ⟨fun hc => hc before child after url hsplit hsome,
        fun hc before' child' after' url' hsplit' hsome' => ?_⟩
      obtain ⟨hall', hurl'⟩ := hone before' child' after' url' hsplit' hsome'
      obtain rfl : url = url' := (List.cons.inj (hall.symm.trans hall')).1
      rw [← List.append_cancel_left (hurl.symm.trans hurl')]
      exact hc
    rw [hcondition, or_iff_right hdropped]
    generalize textOf tooLarge .link after = link at hurl
    simp only [computed, expected, hdropped, hdownload, hurl, false_or]
    by_cases hfull : maxFieldBytes < len (url ++ link)
    · rw [len_append] at hfull
      simp only [len_append, hfull, true_or, if_true, not_le.mpr hfull, and_false, or_true,
        and_true, false_or]
      by_cases hblank : Blank isWhitespace url
      · simp [hblank]
      · simp [hblank]
    · rw [len_append] at hfull
      simp only [len_append, hfull, false_or, or_false, not_lt.mp hfull, and_true, blank_append]
      by_cases hblank : Blank isWhitespace url
      · by_cases hlink : Blank isWhitespace link
        · simp [hblank, hlink]
        · simp [hblank, hlink]
      · simp only [hblank, false_and, if_false, or_false, Option.some.injEq, TorznabResult.mk.injEq,
          true_and, and_true, String.ofList_inj]
        exact trim_append_eq_iff

section

variable (resultLimit : ℕ) (emit : List TorznabResult → TorznabResult → Except String Unit)

/-- An item hands over the result its children call for exactly if their order does no harm. -/
theorem emitted_iff {children children' : List (Child ε)} (hitem : IsItem tooLarge children)
    (hperm : children'.Perm children) {s : Loop} (hfield : s.field = none) :
    handed ((itemEvents children').foldlM (step tooLarge resultLimit emit) s) =
        s.log ++ (expected tooLarge s.depth children).toList ↔
      InOrder tooLarge s.depth children' := by
  have hitem' := isItem_perm hitem hperm
  rw [handed_item resultLimit emit hitem' hfield, ← expected_perm hitem hperm,
    ← computed_eq_expected_iff hitem', List.append_cancel_left_eq]
  refine ⟨fun h => ?_, fun h => by rw [h]⟩
  cases hc : computed tooLarge s.depth children' <;>
    cases he : expected tooLarge s.depth children' <;>
    simp_all

/-- **The order of the children of an item** matters where the text of a link comes behind the url
of the enclosure, and nowhere else: `parse_torznab` emits the result the children call for if, and
only if, there is no such text. -/
theorem parseTorznab_order (hlimit : resultLimit ≠ 0)
    {before : List (Except ε (Event ε))} {s : Loop}
    (hbefore : before.foldlM (step tooLarge resultLimit emit) .start = .ok s)
    (hfield : s.field = none) {children children' : List (Child ε)}
    (hitem : IsItem tooLarge children) (hperm : children'.Perm children) :
    (parseTorznab tooLarge resultLimit emit (before ++ itemEvents children')).log =
        s.log ++ (expected tooLarge s.depth children).toList ↔
      InOrder tooLarge s.depth children' := by
  rw [← emitted_iff resultLimit emit hitem hperm hfield, parseTorznab, if_neg hlimit,
    List.foldlM_append, hbefore]
  change (match (itemEvents children').foldlM (step tooLarge resultLimit emit) s with
    | .error outcome => outcome
    | .ok s => ⟨s.log, .ok s.emitted⟩ : Outcome ε).log = _ ↔ _
  cases (itemEvents children').foldlM (step tooLarge resultLimit emit) s <;> rfl

end

/-! ### An enclosure before its link -/

/-- An element of text. -/
def textElement (name content : String) : Child Unit :=
  .element ⟨name.toList, []⟩ [.text content.toList]

/-- An enclosure. -/
def enclosure (url : String) : Child Unit :=
  .empty ⟨"enclosure".toList, [.ok ⟨"url".toList, .ok url.toList⟩]⟩

/-- The link before the enclosure. -/
def linkFirst : List (Child Unit) := [textElement "title" "A", textElement "link" "http://p/i/1",
      enclosure "http://p/d/1"]

/-- The enclosure before the link. -/
def enclosureFirst : List (Child Unit) :=
  [textElement "title" "A", enclosure "http://p/d/1", textElement "link" "http://p/i/1"]

theorem isItem_linkFirst : IsItem (fun _ => false) linkFirst where
  noItem := by
    intro tag pieces h
    simp only [linkFirst, textElement, enclosure, List.mem_cons, Child.element.injEq, reduceCtorEq,
      List.not_mem_nil, or_false] at h
    rcases h with ⟨rfl, -⟩ | ⟨rfl, -⟩ <;> decide
  text_once field := by cases field <;> decide +kernel
  url_once := by decide +kernel
  size_once := by decide +kernel
  text_len field := by cases field <;> decide +kernel
  url_len := by decide +kernel

theorem perm_enclosureFirst : enclosureFirst.Perm linkFirst := .cons _ (.swap ..)

/-- The enclosure wins over the link before it, and is joined with the link behind it. -/
theorem enclosureFirst_joined :
    IsItem (fun _ => false) linkFirst ∧ enclosureFirst.Perm linkFirst ∧
    expected (fun _ => false) 0 linkFirst = some ⟨"A", none, "http://p/d/1", none⟩ ∧
    (parseTorznab (fun _ => false) 100 (fun _ _ => .ok ()) (itemEvents linkFirst)).log =
      [⟨"A", none, "http://p/d/1", none⟩] ∧
    (parseTorznab (fun _ => false) 100 (fun _ _ => .ok ()) (itemEvents enclosureFirst)).log =
      [⟨"A", none, "http://p/d/1http://p/i/1", none⟩] :=
  ⟨isItem_linkFirst, perm_enclosureFirst, by decide +kernel, by decide +kernel, by decide +kernel⟩

theorem parseTorznab_order_enclosureFirst :
    (parseTorznab (fun _ => false) 100 (fun _ _ => .ok ()) ([] ++ itemEvents enclosureFirst)).log =
        Loop.start.log ++ (expected (fun _ => false) Loop.start.depth linkFirst).toList ↔
      InOrder (fun _ => false) Loop.start.depth enclosureFirst :=
  parseTorznab_order 100 (fun _ _ =>
    .ok ()) (by decide) (by rfl) rfl isItem_linkFirst perm_enclosureFirst

end Sporos.Service.TorznabOrder
