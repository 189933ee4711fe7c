import Sporos.Lib.Trim
import Sporos.Service.Search

/-! # Torznab responses

`parse_torznab` and `parse_torznab_async` of `torznab.rs`, whose loops over the events of
`quick_xml` are the same. What the reader returns is a list: an event, or an error of the reader.
The local names, the attributes and the texts of the events are what `quick_xml` delivers, and so is
the answer of `resolve_char_ref`; the reader's errors are a type `ε` of which only the one that
stands for too many bytes is known (`tooLarge`).

The results handed to `emit` are kept in the order of the calls, and its answer may depend on them.
-/

namespace Sporos.Service.Torznab

open Sporos.Model.Matching
open Sporos.Matcher.Release (bytes isWhitespace trim)
open Sporos.Service.Search (TorznabResult)

/-- `MAX_DEPTH`. -/
def maxDepth : ℕ := 32
/-- `MAX_FIELD_BYTES`. -/
def maxFieldBytes : ℕ := 16 * 1024

/-- `str::len`. -/
def len (s : Str) : ℕ := (bytes s).length

/-- Why a feed is refused. -/
inductive TorznabParseError (ε : Type) where
  | limitExceeded
  | depthExceeded
  | prohibitedXml
  | xml (source : ε)
  | consumer (message : String)
  deriving DecidableEq, Repr

/-- An attribute of an element. -/
structure Attribute (ε : Type) where
  localName : Str
  normalizedValue : Except ε Str

/-- `BytesStart`. -/
structure Tag (ε : Type) where
  localName : Str
  attributes : List (Except ε (Attribute ε))

/-- `BytesRef`. -/
structure Reference (ε : Type) where
  name : Str
  resolveCharRef : Except ε (Option Char)

/-- What the reader tells of the feed. -/
inductive Event (ε : Type) where
  | start (tag : Tag ε)
  | empty (tag : Tag ε)
  | text (content : Str)
  | cData (content : Str)
  | generalRef (reference : Reference ε)
  | endTag (localName : Str)
  | docType
  | pi
  | eof
  /-- Comments and the XML declaration. -/
  | other

/-- The fields that texts are collected in. -/
inductive Field where
  | title
  | guid
  | link
  deriving DecidableEq, Repr

/-- An item that is being read. -/
structure Item where
  title : Str
  guid : Str
  downloadUrl : Str
  size : Option ℕ
  invalid : Bool
  deriving DecidableEq, Repr

/-- An item of which nothing has been read. -/
def Item.default : Item := ⟨[], [], [], none, false⟩

/-- `set_url`. -/
def Item.setUrl (item : Item) (value : Str) : Item :=
  if len value > maxFieldBytes then { item with invalid := true }
    else { item with downloadUrl := value }

/-- `finish`: the result that the item is, if it is one. -/
def Item.finish (item : Item) : Option TorznabResult :=
  let title := trim item.title
  let guid := trim item.guid
  let downloadUrl := trim item.downloadUrl
  if item.invalid ∨ title = [] ∨ downloadUrl = [] then none
  else some ⟨String.ofList title, if guid = [] then none else some (String.ofList guid),
    String.ofList downloadUrl, item.size⟩

/-- The text of a field. -/
def Item.get (item : Item) : Field → Str
  | .title => item.title
  | .guid => item.guid
  | .link => item.downloadUrl

/-- The item with a new text of a field. -/
def Item.set (item : Item) (value : Str) : Field → Item
  | .title => { item with title := value }
  | .guid => { item with guid := value }
  | .link => { item with downloadUrl := value }

/-- `append`: a field that gets too long makes the item invalid. -/
def append (field : Field) (item : Item) (value : Str) : Item :=
  if len (item.get field) + len value > maxFieldBytes then { item with invalid := true }
  else item.set (item.get field ++ value) field

/-- `str::parse::<u64>`. -/
def parseU64 (value : Str) : Option ℕ :=
  let digits := if value.head? = some '+' then value.tail else value
  if digits = [] ∨ ¬digits.all Char.isDigit then none
  else
    let n := digits.foldl (fun n c => n * 10 + (c.toNat - 48)) 0
    if n < 2 ^ 64 then some n else none

section

variable {ε : Type} (tooLarge : ε → Bool)

/-- `classify_error`. -/
def classifyError (error : ε) : TorznabParseError ε :=
  if tooLarge error then .limitExceeded else .xml error

/-- The value of the first attribute of a name. -/
def attributeOf (name : Str) : List (Except ε (Attribute ε)) →
    Except (TorznabParseError ε) (Option Str)
  | [] => .ok none
  | .error e :: _ => .error (classifyError tooLarge e)
  | .ok a :: rest =>
    if a.localName = name then
      match a.normalizedValue with
      | .error e => .error (classifyError tooLarge e)
      | .ok value => .ok (some value)
    else attributeOf name rest

/-- `attribute`. -/
def attributeValue (tag : Tag ε) (name : String) : Except (TorznabParseError ε) (Option Str) :=
  attributeOf tooLarge name.toList tag.attributes

/-- `resolve_reference`. -/
def resolveReference (reference : Reference ε) : Except (TorznabParseError ε) Char :=
  if reference.name = "lt".toList then .ok '<'
  else if reference.name = "gt".toList then .ok '>'
  else if reference.name = "amp".toList then .ok '&'
  else if reference.name = "apos".toList then .ok '\''
  else if reference.name = "quot".toList then .ok '"'
  else match reference.resolveCharRef with
    | .error e => .error (classifyError tooLarge e)
    | .ok none => .error .prohibitedXml
    | .ok (some c) => .ok c

/-- The branch of an empty element within an item. -/
def emptyElement (tag : Tag ε) (item : Item) : Except (TorznabParseError ε) Item :=
  if tag.localName = "enclosure".toList then
    match attributeValue tooLarge tag "url" with
    | .error e => .error e
    | .ok none => .ok item
    | .ok (some value) => .ok (item.setUrl value)
  else if tag.localName = "attr".toList then
    match attributeValue tooLarge tag "name" with
    | .error e => .error e
    | .ok name =>
      if name = some "size".toList then
        match attributeValue tooLarge tag "value" with
        | .error e => .error e
        | .ok value =>
          match value.bind parseU64 with
          | some size => .ok { item with size := some size }
          | none => .ok { item with invalid := true }
      else .ok item
  else .ok item

/-- The field that an element of a name fills. -/
def fieldOf (localName : Str) : Option Field :=
  if localName = "title".toList then some .title
  else if localName = "guid".toList then some .guid
  else if localName = "link".toList then some .link
  else none

/-! ### The loop -/

/-- The variables of the loop; `log` holds the results handed to `emit`. -/
structure Loop where
  depth : ℕ
  item : Option Item
  field : Option Field
  emitted : ℕ
  log : List TorznabResult
  deriving DecidableEq, Repr

/-- Nothing has been read yet. -/
def Loop.start : Loop := ⟨0, none, none, 0, []⟩

/-- What `parse_torznab` returns, and the results handed to `emit` until then. -/
structure Outcome (ε : Type) where
  log : List TorznabResult
  result : Except (TorznabParseError ε) ℕ

/-- The loop ends with an error. -/
def Loop.fail (s : Loop) (error : TorznabParseError ε) : Except (Outcome ε) Loop :=
  .error ⟨s.log, .error error⟩

/-- The text goes to the field that is open, if any. -/
def Loop.append (s : Loop) (value : Str) : Loop :=
  match s.item, s.field with
  | some item, some field => { s with item := some (Torznab.append field item value) }
  | _, _ => s

variable (resultLimit : ℕ) (emit : List TorznabResult → TorznabResult → Except String Unit)

/-- The end of an element, apart from the depth. -/
def Loop.close (s : Loop) (localName : Str) : Except (Outcome ε) Loop :=
  let s := if (fieldOf localName).isSome then { s with field := none } else s
  if localName = "item".toList then
    let found := s.item.bind Item.finish
    let s := { s with item := none }
    match found with
    | none => .ok s
    | some result =>
      match emit s.log result with
      | .error message => .error ⟨s.log ++ [result], .error (.consumer message)⟩
      | .ok () =>
        let s := { s with log := s.log ++ [result], emitted := s.emitted + 1 }
        if s.emitted = resultLimit then .error ⟨s.log, .ok s.emitted⟩ else .ok s
  else .ok s

/-- The body of the loop. It stops with an outcome. -/
def step (s : Loop) : Except ε (Event ε) → Except (Outcome ε) Loop
  | .error e => s.fail (classifyError tooLarge e)
  | .ok (.start tag) =>
    let s := { s with depth := s.depth + 1 }
    if s.depth > maxDepth then s.fail .depthExceeded
    else if tag.localName = "item".toList then .ok { s with item := some .default }
    else match fieldOf tag.localName with
      | some field => .ok (if s.item.isSome then { s with field := some field } else s)
      | none => .ok s
  | .ok (.empty tag) =>
    match s.item with
    | none => .ok s
    | some item =>
      match emptyElement tooLarge tag item with
      | .error e => s.fail e
      | .ok item => .ok { s with item := some item }
  | .ok (.text content) => .ok (s.append content)
  | .ok (.cData content) => .ok (s.append content)
  | .ok (.generalRef reference) =>
    match resolveReference tooLarge reference with
    | .error e => s.fail e
    | .ok value => .ok (s.append [value])
  | .ok (.endTag localName) => do
    let s ← s.close resultLimit emit localName
    return { s with depth := s.depth - 1 }
  | .ok .docType => s.fail .prohibitedXml
  | .ok .pi => s.fail .prohibitedXml
  | .ok .eof => .error ⟨s.log, .ok s.emitted⟩
  | .ok .other => .ok s

/-- `parse_torznab`. -/
def parseTorznab (events : List (Except ε (Event ε))) : Outcome ε :=
  if resultLimit = 0 then ⟨[], .ok 0⟩
  else match events.foldlM (step tooLarge resultLimit emit) .start with
    | .error outcome => outcome
    | .ok s => ⟨s.log, .ok s.emitted⟩

end

end Sporos.Service.Torznab
