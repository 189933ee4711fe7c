import Sporos.Service.Ingress

/-! # The inventory of qBittorrent

The items of `inventory.rs`: what the decoder of the torrent list and of the main data emits, and
the checks that an item has passed. The progress of a torrent is a finite `f64`; here it is a
rational. -/

namespace Sporos.Service.Inventory

open Sporos.Service.Tables
open Sporos.Service.Ingress

/-- `MAX_HASH_BYTES`. -/
def maxHashBytes : ℕ := 64

/-- `MAX_NAME_BYTES`. -/
def maxNameBytes : ℕ := 4096

/-- `MAX_PATH_BYTES`. -/
def maxPathBytes : ℕ := 16384

/-- `MAX_LABEL_BYTES`. -/
def maxLabelBytes : ℕ := 4096

/-- `MAX_STATE_BYTES`. -/
def maxStateBytes : ℕ := 64

/-- A torrent of a full listing. -/
structure InventoryTorrent where
  hash : String
  infohashV1 : String
  infohashV2 : String
  name : String
  totalSize : ℕ
  amountLeft : ℕ
  progress : ℚ
  state : String
  savePath : String
  contentPath : String
  category : String
  tags : String
  addedOn : ℤ
  completionOn : ℤ
  deriving DecidableEq, Repr

/-- What has changed of a torrent. -/
structure InventoryDelta where
  infohashV1 : Option String
  infohashV2 : Option String
  name : Option String
  totalSize : Option ℕ
  amountLeft : Option ℕ
  progress : Option ℚ
  state : Option String
  savePath : Option String
  contentPath : Option String
  category : Option String
  tags : Option String
  addedOn : Option ℤ
  completionOn : Option ℤ
  deriving DecidableEq, Repr

/-- A torrent has changed, or it has been removed. -/
inductive InventoryChange where
  | upsert (qbitId : String) (delta : InventoryDelta)
  | removed (qbitId : String)
  deriving DecidableEq, Repr

/-- A file of `api/v2/torrents/files`; its progress is checked and not used. -/
structure InventoryFile where
  index : ℕ
  name : String
  size : ℕ
  deriving DecidableEq, Repr

/-- The record of a torrent, with all of its fields. -/
def InventoryTorrent.delta (torrent : InventoryTorrent) : InventoryDelta where
  infohashV1 := some torrent.infohashV1
  infohashV2 := some torrent.infohashV2
  name := some torrent.name
  totalSize := some torrent.totalSize
  amountLeft := some torrent.amountLeft
  progress := some torrent.progress
  state := some torrent.state
  savePath := some torrent.savePath
  contentPath := some torrent.contentPath
  category := some torrent.category
  tags := some torrent.tags
  addedOn := some torrent.addedOn
  completionOn := some torrent.completionOn

/-- `From<InventoryTorrent>` for a change. -/
def InventoryTorrent.change (torrent : InventoryTorrent) : InventoryChange :=
  .upsert torrent.hash torrent.delta

/-! ### Validation -/

/-- `u8::is_ascii_hexdigit`, by the value of the digit. -/
def hexValue (b : UInt8) : Option ℕ :=
  if 48 ≤ b ∧ b ≤ 57 then some (b.toNat - 48)
  else if 97 ≤ b ∧ b ≤ 102 then some (b.toNat - 97 + 10)
  else if 65 ≤ b ∧ b ≤ 70 then some (b.toNat - 65 + 10)
  else none

/-- A text of hexadecimal digits. -/
def isHex (value : String) : Bool := (utf8 value).all fun b => (hexValue b).isSome

/-- `validate_id`. -/
def validateId (value : String) : Except String Unit :=
  if value = "" ∨ (utf8 value).length > maxHashBytes ∨ isHex value = false then
    .error "invalid qBittorrent torrent ID"
  else .ok ()

/-- `validate_hash`. -/
def validateHash (value : String) (length : ℕ) : Except String Unit :=
  if value ≠ "" ∧ ((utf8 value).length ≠ length ∨ isHex value = false)
    then .error "invalid infohash"
  else .ok ()

/-- A progress is a fraction. -/
def validateProgress (progress : ℚ) : Except String Unit :=
  if 0 ≤ progress ∧ progress ≤ 1 then .ok () else .error "invalid progress"

/-- The limit of a text, with the error of the field. -/
def validateText (value : String) (limit : ℕ) (field : String) : Except String Unit :=
  if (utf8 value).length > limit then .error field else .ok ()

/-- `validate` of a torrent. -/
def validate (torrent : InventoryTorrent) : Except String Unit := do
  validateId torrent.hash
  validateHash torrent.infohashV1 40
  validateHash torrent.infohashV2 64
  validateProgress torrent.progress
  validateText torrent.name maxNameBytes "name"
  validateText torrent.state maxStateBytes "state"
  validateText torrent.savePath maxPathBytes "save path"
  validateText torrent.contentPath maxPathBytes "content path"
  validateText torrent.category maxLabelBytes "category"
  validateText torrent.tags maxLabelBytes "tags"

/-- `validate` of a change. -/
def validateDelta (delta : InventoryDelta) : Except String Unit := do
  delta.infohashV1.forM (validateHash · 40)
  delta.infohashV2.forM (validateHash · 64)
  delta.progress.forM validateProgress
  delta.name.forM (validateText · maxNameBytes "name")
  delta.state.forM (validateText · maxStateBytes "state")
  delta.savePath.forM (validateText · maxPathBytes "save path")
  delta.contentPath.forM (validateText · maxPathBytes "content path")
  delta.category.forM (validateText · maxLabelBytes "category")
  delta.tags.forM (validateText · maxLabelBytes "tags")

end Sporos.Service.Inventory
