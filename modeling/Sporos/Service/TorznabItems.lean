import Sporos.Lib.Lists
import Sporos.Lib.Loop
import Sporos.Service.Torznab

/-! # The elements of a Torznab item

The children of an item in any order: elements with text, empty elements with attributes, and what
stands between them. An element of text comes in pieces, texts, CDATA and references. An enclosure
and an attribute are empty elements; the events of `<enclosure></enclosure>` are those of an element
with text, which the loop passes over.

The url of an enclosure replaces what is there, and the text of a link is put behind it. So a link
after the enclosure changes the download url, and the order of the children matters (`emitted_iff`).
-/

namespace Sporos.Service.TorznabItems

open Sporos.Model.Matching
open Sporos.Lib.Lists Sporos.Lib.Loop
open Sporos.Lib.Trim (Blank)
open Sporos.Matcher.Release (bytes isWhitespace trim)
open Sporos.Service.Search (TorznabResult)
open Sporos.Service.Torznab

/-- A piece of the content of an element. -/
inductive Piece (ε : Type) where
  | text (content : Str)
  | cData (content : Str)
  | ref (reference : Reference ε)
  | comment

/-- A child of an item. -/
inductive Child (ε : Type) where
  | element (tag : Tag ε) (pieces : List (Piece ε))
  | empty (tag : Tag ε)
  | loose (piece : Piece ε)

variable {ε : Type} (tooLarge : ε → Bool)

/-- The event of a piece of text. -/
def Piece.event : Piece ε → Except ε (Event ε)
  | .text content => .ok (.text content)
  | .cData content => .ok (.cData content)
  | .ref reference => .ok (.generalRef reference)
  | .comment => .ok .other

/-- The events of a child. -/
def Child.events : Child ε → List (Except ε (Event ε))
  | .element tag pieces => .ok (.start tag) :: pieces.map Piece.event
      ++ [.ok (.endTag tag.localName)]
  | .empty tag => [.ok (.empty tag)]
  | .loose piece => [piece.event]

/-- The events of an item. -/
def itemEvents (children : List (Child ε)) : List (Except ε (Event ε)) :=
  .ok (.start ⟨"item".toList, []⟩) :: children.flatMap Child.events ++ [.ok (.endTag "item".toList)]

/-! ### What the children say -/

/-- What a piece adds to its field. -/
def Piece.content : Piece ε → Str
  | .text content => content
  | .cData content => content
  | .ref reference => ((resolveReference tooLarge reference).toOption.map fun c => [c]).getD []
  | .comment => []

/-- The text of an element that fills a field. -/
def Child.text (field : Field) : Child ε → Option Str
  | .element tag pieces =>
    if fieldOf tag.localName = some field
      then some (pieces.flatMap (Piece.content tooLarge)) else none
  | _ => none

/-- The url of an enclosure. -/
def Child.enclosureUrl : Child ε → Option Str
  | .empty tag =>
    if tag.localName = "enclosure".toList
      then (attributeValue tooLarge tag "url").toOption.join else none
  | _ => none

/-- The value of a size attribute; it may not be a number. -/
def Child.size : Child ε → Option (Option ℕ)
  | .empty tag =>
    if tag.localName = "attr".toList ∧ (attributeValue tooLarge tag "name").toOption.join =
        some "size".toList then
      some ((attributeValue tooLarge tag "value").toOption.join.bind parseU64)
    else none
  | _ => none

/-- The texts of a field. -/
def texts (field : Field) (children : List (Child ε)) : List Str :=
  children.filterMap (Child.text tooLarge field)

/-- The text of a field. -/
def textOf (field : Field) (children : List (Child ε)) : Str :=
  (texts tooLarge field children).flatten

/-- The addresses of the enclosures. -/
def urls (children : List (Child ε)) : List Str := children.filterMap (Child.enclosureUrl tooLarge)

/-- The sizes that are given. -/
def sizes (children : List (Child ε)) : List (Option ℕ) := children.filterMap (Child.size tooLarge)

/-- The piece can be read. -/
def Piece.accepted : Piece ε → Bool
  | .ref reference => (resolveReference tooLarge reference).isOk
  | _ => true

/-- The events of a child pass the checks of the parser. The depth is that of the item. -/
def Child.accepted (depth : ℕ) : Child ε → Bool
  | .element _ pieces => depth + 1 ≤ maxDepth && pieces.all (Piece.accepted tooLarge)
  | .empty tag => (emptyElement tooLarge tag .default).isOk
  | .loose piece => piece.accepted tooLarge

/-- The children of an item: a title, a guid, a link, an enclosure and a size, each at most once and
within the limits of the fields, and anything else but items. -/
structure IsItem (children : List (Child ε)) : Prop where
  noItem : ∀ tag pieces, Child.element tag pieces ∈ children → tag.localName ≠ "item".toList
  text_once : ∀ field, (texts tooLarge field children).length ≤ 1
  url_once : (urls tooLarge children).length ≤ 1
  size_once : (sizes tooLarge children).length ≤ 1
  text_len : ∀ field, len (textOf tooLarge field children) ≤ maxFieldBytes
  url_len : ∀ url ∈ urls tooLarge children, len url ≤ maxFieldBytes

/-- The url of the enclosure, or the text of the link where there is none. -/
def downloadUrl (children : List (Child ε)) : Str :=
  (urls tooLarge children).headD (textOf tooLarge .link children)

/-- Nothing comes of the item whatever its urls are: a child does not parse, there is no title, or
the size is not a number. -/
def Dropped (depth : ℕ) (children : List (Child ε)) : Prop :=
  maxDepth < depth + 1 ∨ (∃ child ∈ children, child.accepted tooLarge (depth + 1) = false) ∨
    Blank isWhitespace (textOf tooLarge .title children) ∨ none ∈ sizes tooLarge children

instance (depth : ℕ) (children : List (Child ε)) : Decidable (Dropped tooLarge depth children) :=
  inferInstanceAs (Decidable (_ ∨ _ ∨ _ ∨ _))

/-- The result of an item, if any: its title, guid and size, with the url of its enclosure or else
its link. -/
def expected (depth : ℕ) (children : List (Child ε)) : Option TorznabResult :=
  if Dropped tooLarge depth children ∨ Blank isWhitespace (downloadUrl tooLarge children) then none
  else
    let guid := trim (textOf tooLarge .guid children)
    some ⟨String.ofList (trim (textOf tooLarge .title children)),
      if guid = [] then none else some (String.ofList guid),
      String.ofList (trim (downloadUrl tooLarge children)), ((sizes tooLarge children).head?).join⟩

/-- The order of the children does no harm: the text of a link after the enclosure is blank and fits
behind the url, or there is nothing to harm. -/
def InOrder (depth : ℕ) (children : List (Child ε)) : Prop :=
  Dropped tooLarge depth children ∨
    ∀ before child after url, children = before ++ child :: after →
      child.enclosureUrl tooLarge = some url →
      (Blank isWhitespace (textOf tooLarge .link after) ∧
          len url + len (textOf tooLarge .link after) ≤ maxFieldBytes) ∨
        (Blank isWhitespace url ∧
          (Blank isWhitespace (textOf tooLarge .link after) ∨
            maxFieldBytes < len url + len (textOf tooLarge .link after)))

/-! ### One child -/

section

variable {tooLarge}

@[simp]
theorem len_append (s t : Str) : len (s ++ t) = len s + len t := by simp [len, bytes]

/-- An element fills its field with a text, unless it is too long. -/
structure Filled (field : Field) (item item' : Item) (text : Str) : Prop where
  others : ∀ other, other ≠ field → item'.get other = item.get other
  size : item'.size = item.size
  invalid : item'.invalid = true ↔ item.invalid = true
    ∨ maxFieldBytes < len (item.get field ++ text)
  value : len (item.get field ++ text) ≤ maxFieldBytes → item'.get field = item.get field ++ text
  within : len (item'.get field) ≤ maxFieldBytes

@[simp]
theorem get_set_self (item : Item) (value : Str) (field : Field) :
    (item.set value field).get field = value := by
  cases field <;> rfl

theorem get_set_of_ne (item : Item) (value : Str) {field other : Field} (h : other ≠ field) :
    (item.set value field).get other = item.get other := by
  cases field <;> cases other <;> first | rfl | exact absurd rfl h

@[simp]
theorem size_set (item : Item) (value : Str) (field : Field) :
    (item.set value field).size = item.size := by
  cases field <;> rfl

@[simp]
theorem invalid_set (item : Item) (value : Str) (field : Field) :
    (item.set value field).invalid = item.invalid := by
  cases field <;> rfl

@[simp]
theorem get_invalid (item : Item) (b : Bool) (field : Field) :
    ({ item with invalid := b } : Item).get field = item.get field := by
  cases field <;> rfl

theorem filled_nil {field : Field} {item : Item} (h : len (item.get field) ≤ maxFieldBytes) :
    Filled field item item [] :=
  ⟨fun _ _ => rfl, rfl, by simp [h], fun _ => by simp, h⟩

theorem filled_append {field : Field} {item : Item}
    (h : len (item.get field) ≤ maxFieldBytes) (text : Str) :
    Filled field item (append field item text) text := by
  unfold append
  split_ifs with hlong
  · refine ⟨fun other _ => by simp, rfl, ?_, fun hshort => ?_, by simpa using h⟩
    · simpa using Or.inr hlong
    · rw [len_append] at hshort
      omega
  · refine ⟨fun other hne => get_set_of_ne _ _ hne, by simp, ?_,
      fun _ => by simp, by simpa using hlong⟩
    rw [invalid_set, len_append, or_iff_left hlong]

theorem Filled.trans {field : Field} {item item' item'' : Item} {t t' : Str}
    (h : Filled field item item' t) (h' : Filled field item' item'' t') :
      Filled field item item'' (t ++ t') := by
  refine ⟨fun other hne => (h'.others other hne).trans (h.others other hne), h'.size.trans h.size,
    ?_, fun hshort => ?_, h'.within⟩
  · rw [h'.invalid, h.invalid, ← List.append_assoc]
    by_cases hfirst : len (item.get field ++ t) ≤ maxFieldBytes
    · rw [h.value hfirst, or_iff_left (not_lt.mpr hfirst)]
    · -- a field that is full stays so
      rw [not_le] at hfirst
      have hboth : maxFieldBytes < len (item.get field ++ t ++ t') := by
        rw [len_append]
        omega
      simp only [hfirst, hboth, or_true, true_or]
  · rw [← List.append_assoc] at hshort ⊢
    have hfirst : len (item.get field ++ t) ≤ maxFieldBytes := by
      rw [len_append] at hshort
      omega
    rw [← h.value hfirst] at hshort ⊢
    exact h'.value hshort

variable (resultLimit : ℕ) (emit : List TorznabResult → TorznabResult → Except String Unit)

/-- The loop over some events stops with an error, and nothing is emitted. -/
def Fails (s : Loop) (x : Except (Outcome ε) Loop) : Prop := ∃ e, x = .error ⟨s.log, .error e⟩

theorem step_piece {s : Loop} {piece : Piece ε} (h : piece.accepted tooLarge = true) :
    step tooLarge resultLimit emit s piece.event = .ok (s.append (piece.content tooLarge)) ∨
      (piece.content tooLarge = [] ∧ step tooLarge resultLimit emit s piece.event = .ok s) := by
  cases piece with
  | text content => exact .inl rfl
  | cData content => exact .inl rfl
  | comment => exact .inr ⟨rfl, rfl⟩
  | ref reference =>
    left
    simp only [Piece.accepted] at h
    simp only [Piece.content, Piece.event, step]
    cases hr : resolveReference tooLarge reference with
    | error e => rw [hr] at h; cases h
    | ok c => rfl

theorem step_piece_rejected {s : Loop} {piece : Piece ε} (h : piece.accepted tooLarge = false) :
    Fails s (step tooLarge resultLimit emit s piece.event) := by
  cases piece with
  | text content => cases h
  | cData content => cases h
  | comment => cases h
  | ref reference =>
    simp only [Piece.accepted] at h
    simp only [Piece.event, step]
    cases hr : resolveReference tooLarge reference with
    | error e => exact ⟨e, rfl⟩
    | ok c => rw [hr] at h; cases h

/-- What the content of an element makes of an item, with a field open or none. -/
def DonePieces (tooLarge : ε → Bool) (field : Option Field) (item item' : Item)
    (pieces : List (Piece ε)) : Prop :=
  match field with
  | none => item' = item
  | some field => Filled field item item' (pieces.flatMap (Piece.content tooLarge))

theorem run_pieces : ∀ (pieces : List (Piece ε)) {s : Loop} {item : Item}, s.item = some item →
    (∀ field, len (item.get field) ≤ maxFieldBytes) → pieces.all (Piece.accepted tooLarge) = true →
    ∃ item', DonePieces tooLarge s.field item item' pieces ∧
      (pieces.map Piece.event).foldlM (step tooLarge resultLimit emit) s = .ok { s with
        item := some item' }
  | [], s, item, hitem, hwithin, _ => by
    refine ⟨item, ?_, by rw [← hitem]; rfl⟩
    unfold DonePieces
    cases s.field with
    | none => rfl
    | some field => exact filled_nil (hwithin field)
  | piece :: pieces, s, item, hitem, hwithin, haccept => by
    obtain ⟨hpiece, hpieces⟩ := Bool.and_eq_true_iff.mp (List.all_cons ▸ haccept)
    rw [List.map_cons, List.foldlM_cons]
    rcases step_piece resultLimit emit (s := s) hpiece with hstep | ⟨hnil, hstep⟩
    · rw [hstep]
      rcases Option.eq_none_or_eq_some s.field with hfield | ⟨field, hfield⟩
      · obtain ⟨item', hdone, hrun⟩ := run_pieces pieces hitem hwithin hpieces
        have happend : s.append (piece.content tooLarge) = s := by simp [Loop.append, hfield, hitem]
        rw [hfield] at hdone ⊢
        exact ⟨item', hdone, by rw [happend, ← hfield]; exact hrun⟩
      · have hfill := filled_append (hwithin field) (piece.content tooLarge)
        have happend : s.append (piece.content tooLarge) =
            { s with item := some (append field item (piece.content tooLarge)) } := by
          simp [Loop.append, hfield, hitem]
        obtain ⟨item', hdone, hrun⟩ := run_pieces pieces
          (s := { s with item := some (append field item (piece.content tooLarge)) }) rfl
          (fun other => by
            by_cases hne : other = field
            · rw [hne]; exact hfill.within
            · rw [hfill.others other hne]; exact hwithin other) hpieces
        simp only [hfield] at hdone
        refine ⟨item', ?_, by rw [happend]; exact hrun⟩
        rw [hfield]
        exact hfill.trans hdone
    · obtain ⟨item', hdone, hrun⟩ := run_pieces pieces hitem hwithin hpieces
      refine ⟨item', ?_, by rw [hstep]; exact hrun⟩
      simpa [DonePieces, hnil] using hdone

theorem run_pieces_rejected : ∀ (pieces : List (Piece ε)) {s : Loop},
    pieces.all (Piece.accepted tooLarge) = false →
    Fails s ((pieces.map Piece.event).foldlM (step tooLarge resultLimit emit) s)
  | [], s, h => by cases h
  | piece :: pieces, s, h => by
    rw [List.map_cons, List.foldlM_cons]
    by_cases hpiece : piece.accepted tooLarge = true
    · have hpieces : pieces.all (Piece.accepted tooLarge) = false := by simpa [hpiece] using h
      rcases step_piece resultLimit emit (s := s) hpiece with hstep | ⟨-, hstep⟩
      · rw [hstep]
        have hlog : (s.append (piece.content tooLarge)).log = s.log := by
          unfold Loop.append
          split <;> rfl
        have hrest := run_pieces_rejected pieces (s := s.append (piece.content tooLarge)) hpieces
        rw [Fails, hlog] at hrest
        exact hrest
      · rw [hstep]
        exact run_pieces_rejected pieces hpieces
    · obtain ⟨e, he⟩ := step_piece_rejected resultLimit emit (s := s)
        (Bool.not_eq_true _ ▸ hpiece)
      rw [he]
      exact ⟨e, rfl⟩

/-- What an empty element makes of an item. -/
def onEmpty (tooLarge : ε → Bool) (item : Item) (child : Child ε) : Item :=
  match child.enclosureUrl tooLarge with
  | some url => item.setUrl url
  | none =>
    match child.size tooLarge with
    | some (some size) => { item with size := some size }
    | some none => { item with invalid := true }
    | none => item

variable (tooLarge) in
theorem emptyElement_cases (tag : Tag ε) (item : Item) :
    ((emptyElement tooLarge tag .default).isOk = true ∧
      emptyElement tooLarge tag item = .ok (onEmpty tooLarge item (.empty tag))) ∨
    ((emptyElement tooLarge tag .default).isOk = false ∧ ∃ e,
      emptyElement tooLarge tag item = .error e) := by
  have hnames : "enclosure".toList ≠ "attr".toList := by decide
  unfold emptyElement onEmpty Child.enclosureUrl Child.size
  by_cases henclosure : tag.localName = "enclosure".toList
  · simp only [henclosure, if_true, hnames, false_and, if_false]
    match attributeValue tooLarge tag "url" with
    | .error e => exact .inr ⟨rfl, e, rfl⟩
    | .ok none => exact .inl ⟨rfl, rfl⟩
    | .ok (some url) => exact .inl ⟨rfl, rfl⟩
  · by_cases hattr : tag.localName = "attr".toList
    · simp only [hattr, if_true, hnames.symm, if_false, true_and]
      match attributeValue tooLarge tag "name" with
      | .error e => exact .inr ⟨rfl, e, rfl⟩
      | .ok name =>
        by_cases hsize : name = some "size".toList
        · have hjoin : (Except.ok name : Except (TorznabParseError ε) (Option Str)).toOption.join =
            some "size".toList := hsize
          simp only [hsize, if_true]
          match attributeValue tooLarge tag "value" with
          | .error e => exact .inr ⟨rfl, e, rfl⟩
          | .ok value =>
            have hvalue : (Except.ok value : Except (TorznabParseError ε)
              (Option Str)).toOption.join = value := rfl
            left
            simp only [hvalue]
            cases value.bind parseU64 with
            | none => exact ⟨rfl, rfl⟩
            | some n => exact ⟨rfl, rfl⟩
        · have hjoin : ¬(Except.ok name : Except (TorznabParseError ε) (Option Str)).toOption.join =
            some "size".toList := hsize
          simp only [hsize, hjoin, if_false]
          exact .inl ⟨rfl, trivial⟩
    · simp only [henclosure, hattr, if_false, false_and]
      exact .inl ⟨rfl, trivial⟩

/-- What a child makes of an item. -/
def Done (tooLarge : ε → Bool) (item item' : Item) : Child ε → Prop
  | .element tag pieces => DonePieces tooLarge (fieldOf tag.localName) item item' pieces
  | .empty tag => item' = onEmpty tooLarge item (.empty tag)
  | .loose _ => item' = item

/-- The loop between two children of an item. -/
structure Within (s : Loop) (item : Item) : Prop where
  eq : s.item = some item
  field : s.field = none
  len_le : ∀ field, len (item.get field) ≤ maxFieldBytes

theorem step_start {s : Loop} {item : Item} (h : Within s item) {tag : Tag ε}
    (hname : tag.localName ≠ "item".toList) (hdepth : s.depth + 1 ≤ maxDepth) :
    step tooLarge resultLimit emit s (.ok (.start tag)) =
      .ok { s with depth := s.depth + 1, field := fieldOf tag.localName } := by
  simp only [step, if_neg (not_lt.mpr hdepth), if_neg hname, h.eq, Option.isSome_some, if_true]
  cases fieldOf tag.localName with
  | none => simp [h.field]
  | some field => rfl

theorem step_end {s : Loop} {tag : Tag ε} (hfield : s.field = fieldOf tag.localName)
    (hname : tag.localName ≠ "item".toList) :
    step tooLarge resultLimit emit s (.ok (.endTag tag.localName)) =
      .ok { s with depth := s.depth - 1, field := none } := by
  simp only [step, Loop.close, if_neg hname]
  cases hf : fieldOf tag.localName with
  | none => simp [bind, Except.bind, pure, Except.pure, hfield, hf]
  | some field => simp [bind, Except.bind, pure, Except.pure]

/-- The events of a child that passes. -/
theorem run_child {s : Loop} {item : Item} (h : Within s item) (child : Child ε)
    (hname : ∀ tag pieces, child = .element tag pieces → tag.localName ≠ "item".toList)
    (haccept : child.accepted tooLarge s.depth = true) :
    ∃ item', Done tooLarge item item' child ∧
      child.events.foldlM (step tooLarge resultLimit emit) s = .ok { s with
        item := some item' } := by
  cases child with
  | element tag pieces =>
    obtain ⟨hdepth, hpieces⟩ := Bool.and_eq_true_iff.mp haccept
    have hname := hname tag pieces rfl
    obtain ⟨item', hdone, hrun⟩ := run_pieces resultLimit emit pieces
      (s := { s with depth := s.depth + 1, field := fieldOf tag.localName }) h.eq h.len_le hpieces
    refine ⟨item', hdone, ?_⟩
    rw [Child.events, List.cons_append, List.foldlM_cons,
      step_start resultLimit emit h hname (by simpa using hdepth)]
    change (pieces.map Piece.event ++ [Except.ok (Event.endTag tag.localName)]).foldlM _ _ = _
    rw [List.foldlM_append, hrun]
    change [Except.ok (Event.endTag tag.localName)].foldlM (step tooLarge resultLimit emit) _ = _
    rw [List.foldlM_cons, step_end resultLimit emit rfl hname]
    simp [h.field, bind, Except.bind, pure, Except.pure]
  | empty tag =>
    rcases emptyElement_cases tooLarge tag item with ⟨-, hok⟩ | ⟨hno, -⟩
    · refine ⟨_, rfl, ?_⟩
      simp [Child.events, step, h.eq, hok, bind, Except.bind, pure, Except.pure]
    · rw [Child.accepted, hno] at haccept
      cases haccept
  | loose piece =>
    refine ⟨item, rfl, ?_⟩
    have happend : s.append (piece.content tooLarge) = s := by simp [Loop.append, h.field, h.eq]
    have hsame : s = { s with item := some item } := by rw [← h.eq]
    rw [← hsame, Child.events, List.foldlM_cons]
    rcases step_piece resultLimit emit (s := s) haccept with hstep | ⟨-, hstep⟩
    · rw [hstep, happend]
      rfl
    · rw [hstep]
      rfl

/-- The events of a child that does not pass. -/
theorem run_child_rejected {s : Loop} {item : Item} (h : Within s item) (child : Child ε)
    (hname : ∀ tag pieces, child = .element tag pieces → tag.localName ≠ "item".toList)
    (hreject : child.accepted tooLarge s.depth = false) :
    Fails s (child.events.foldlM (step tooLarge resultLimit emit) s) := by
  cases child with
  | element tag pieces =>
    have hname := hname tag pieces rfl
    rw [Child.events, List.cons_append, List.foldlM_cons]
    by_cases hdepth : s.depth + 1 ≤ maxDepth
    · have hpieces : pieces.all (Piece.accepted tooLarge) = false := by
        simpa [Child.accepted, hdepth] using hreject
      obtain ⟨e, he⟩ := run_pieces_rejected resultLimit emit pieces
        (s := { s with depth := s.depth + 1, field := fieldOf tag.localName }) hpieces
      rw [step_start resultLimit emit h hname hdepth]
      change Fails s ((pieces.map Piece.event
        ++ [Except.ok (Event.endTag tag.localName)]).foldlM _ _)
      rw [List.foldlM_append, he]
      exact ⟨e, rfl⟩
    · refine ⟨.depthExceeded, ?_⟩
      simp only [step, if_pos (not_le.mp hdepth)]
      rfl
  | empty tag =>
    rcases emptyElement_cases tooLarge tag item with ⟨hyes, -⟩ | ⟨-, e, he⟩
    · rw [Child.accepted, hyes] at hreject
      cases hreject
    · refine ⟨e, ?_⟩
      simp [Child.events, step, h.eq, he, bind, Except.bind, Loop.fail]
  | loose piece =>
    rw [Child.events, List.foldlM_cons]
    obtain ⟨e, he⟩ := step_piece_rejected resultLimit emit (s := s) hreject
    rw [he]
    exact ⟨e, rfl⟩

end

end Sporos.Service.TorznabItems
