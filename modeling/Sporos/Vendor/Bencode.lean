import Mathlib.Tactic
import Sporos.Lib.JsonNumbers

/-! # Bencode

The vendored codec that a torrent passes through before anything else looks at it: the encoder, the
strict decoder with its limits of depth and of nodes, and the walkers that find the end of a value
without building it. The recursion of the decoder and of the walker carries fuel; what they are
called with is enough for every input. -/

namespace Sporos.Vendor.Bencode

open Sporos.Lib.JsonNumbers (Bytes isDigit writeNat writeInt digitsValue)

/-- `Value`: the entries of a dictionary are in the order of their keys, as a `BTreeMap` keeps them.
-/
inductive Value where
  | int (i : ℤ)
  | bytes (b : Bytes)
  | list (items : List Value)
  | dict (entries : List (Bytes × Value))
  deriving Repr

/-! ### The encoder -/

/-- The length, a colon, and the bytes. -/
def writeBytes (b : Bytes) : Bytes := writeNat b.length ++ 58 :: b

mutual

/-- Writes a value behind what has been written. -/
def encodeInto : Value → Bytes → Bytes
  | .int i, out => out ++ 105 :: writeInt i ++ [101]
  | .bytes b, out => out ++ writeBytes b
  | .list items, out => encodeItems items (out ++ [108]) ++ [101]
  | .dict entries, out => encodeEntries entries (out ++ [100]) ++ [101]

/-- Writes the items of a list in their order. -/
def encodeItems : List Value → Bytes → Bytes
  | [], out => out
  | item :: items, out => encodeItems items (encodeInto item out)

/-- Writes the entries of a dictionary in their order. -/
def encodeEntries : List (Bytes × Value) → Bytes → Bytes
  | [], out => out
  | (key, value) :: entries, out => encodeEntries entries (encodeInto value (out ++ writeBytes key))

end

/-- `encode`: the one encoding of a value. -/
def encode (value : Value) : Bytes := encodeInto value []

/-! ### The cursor -/

/-- What is wrong with an input. -/
inductive DecodeErrorKind where
  | unexpectedEof
  | unexpectedByte (byte : UInt8)
  | invalidInteger
  | integerOverflow
  | invalidLength
  | lengthOverflow
  | lengthExceedsInput
  | unsortedDictKeys
  | duplicateDictKey
  | depthExceeded (max : ℕ)
  | nodeLimitExceeded (max : ℕ)
  | trailingData
  deriving DecidableEq, Repr

/-- What is wrong, and at which byte. -/
structure DecodeError where
  offset : ℕ
  kind : DecodeErrorKind
  deriving DecidableEq, Repr

/-- How deep and how large a value may be. -/
structure DecodeOptions where
  maxDepth : ℕ
  maxNodes : ℕ

/-- The depth that is accepted by default. -/
def defaultMaxDepth : ℕ := 256

/-- The number of values that is accepted by default. -/
def defaultMaxNodes : ℕ := 2000000

instance : Inhabited DecodeOptions := ⟨⟨defaultMaxDepth, defaultMaxNodes⟩⟩

/-- The buffer from the position on, the position, and the nodes charged so far. -/
structure Cursor where
  rest : Bytes
  pos : ℕ
  nodes : ℕ
  deriving DecidableEq, Repr

namespace Cursor

/-- The beginning of the input, with no value read. -/
def new (buf : Bytes) : Cursor := ⟨buf, 0, 0⟩

/-- An error at the place where the reader stands. -/
def err (cur : Cursor) (kind : DecodeErrorKind) : DecodeError := ⟨cur.pos, kind⟩

/-- The next byte, which is not taken. -/
def peek (cur : Cursor) : Option UInt8 := cur.rest.head?

/-- The cursor behind the next `n` bytes. -/
def advance (cur : Cursor) (n : ℕ) : Cursor :=
  { cur with rest := cur.rest.drop n, pos := cur.pos + n }

/-- One more value is read, if the limit allows it. -/
def chargeNode (cur : Cursor) (max : ℕ) : Except DecodeError Cursor :=
  if max ≤ cur.nodes then .error (cur.err (.nodeLimitExceeded max))
    else .ok { cur with nodes := cur.nodes + 1 }

/-- The digits at the cursor. -/
def digits (cur : Cursor) : Bytes := cur.rest.takeWhile isDigit

/-- `bump` for one byte that must be there: the cursor behind it, or the offset of what stands in
its place. -/
def expect (cur : Cursor) (byte : UInt8) (kind : DecodeErrorKind) : Except DecodeError Cursor :=
  match cur.peek with
  | none => .error ⟨cur.pos - 1, kind⟩
  | some found => if found = byte then .ok (cur.advance 1) else .error ⟨cur.pos, kind⟩

/-- The next `n` bytes. -/
def take (cur : Cursor) (n : ℕ) : Except DecodeError (Bytes × Cursor) :=
  if 2 ^ 64 ≤ cur.pos + n then .error (cur.err .lengthOverflow)
  else if cur.rest.length < n then .error (cur.err .lengthExceedsInput)
  else .ok (cur.rest.take n, cur.advance n)

end Cursor

/-! ### Integers and byte strings -/

/-- The digits have a zero in front that is not all of them. -/
def LeadingZero (digits : Bytes) : Prop := 1 < digits.length ∧ digits.head? = some 48

instance (digits : Bytes) : Decidable (LeadingZero digits) := inferInstanceAs (Decidable (_ ∧ _))

/-- `parse_int` behind the sign: errors are reported where the integer starts. -/
def parseDigits (start : Cursor) (negative : Bool) (cur : Cursor) :
    Except DecodeError (ℤ × Cursor) :=
  let digits := cur.digits
  if digits = [] ∨ LeadingZero digits ∨ (negative = true ∧ digits = [48])
    then .error (start.err .invalidInteger)
  else do
    let behind ← (cur.advance digits.length).expect 101 .invalidInteger
    let i : ℤ := if negative then -(digitsValue digits : ℤ) else digitsValue digits
    if i < -2 ^ 63 ∨ 2 ^ 63 ≤ i then .error (start.err .integerOverflow) else .ok (i, behind)

/-- `parse_int`, at the `i`. -/
def parseInt (cur : Cursor) : Except DecodeError (ℤ × Cursor) :=
  let payload := cur.advance 1
  if payload.peek = some 45 then parseDigits cur true (payload.advance 1)
    else parseDigits cur false payload

/-- A byte string: its length, a colon and its bytes. -/
def parseBytes (cur : Cursor) : Except DecodeError (Bytes × Cursor) :=
  let digits := cur.digits
  if digits = [] ∨ LeadingZero digits then .error (cur.err .invalidLength)
  else do
    let behind ← (cur.advance digits.length).expect 58 .invalidLength
    if 2 ^ 64 ≤ digitsValue digits then .error (cur.err .lengthOverflow)
      else behind.take (digitsValue digits)

/-- The key of a dictionary, which must be greater than the one before. -/
def parseKey (last : Option Bytes) (cur : Cursor) : Except DecodeError (Bytes × Cursor) := do
  let (key, behind) ← parseBytes cur
  match last with
  | none => .ok (key, behind)
  | some prev =>
    if key = prev then .error (cur.err .duplicateDictKey)
    else if key < prev then .error (cur.err .unsortedDictKeys)
    else .ok (key, behind)

/-! ### The decoder -/

section

variable (opts : DecodeOptions)

mutual

/-- A value at a depth, with what stands behind it. -/
def parseValue : ℕ → ℕ → Cursor → Except DecodeError (Value × Cursor)
  | 0, _, cur => .error (cur.err .unexpectedEof)
  | fuel + 1, depth, cur =>
    if opts.maxDepth < depth then .error (cur.err (.depthExceeded opts.maxDepth))
    else
      match cur.peek with
      | none => .error (cur.err .unexpectedEof)
      | some byte => do
        let cur ← cur.chargeNode opts.maxNodes
        if byte = 105 then
          let (i, cur) ← parseInt cur
          .ok (.int i, cur)
        else if byte = 108 then
          let (items, cur) ← parseList fuel depth (cur.advance 1)
          .ok (.list items, cur)
        else if byte = 100 then
          let (entries, cur) ← parseDict fuel depth none (cur.advance 1)
          .ok (.dict entries, cur)
        else if isDigit byte then
          let (b, cur) ← parseBytes cur
          .ok (.bytes b, cur)
        else .error (cur.err (.unexpectedByte byte))

/-- The loop of `parse_list`. -/
def parseList : ℕ → ℕ → Cursor → Except DecodeError (List Value × Cursor)
  | 0, _, cur => .error (cur.err .unexpectedEof)
  | fuel + 1, depth, cur =>
    match cur.peek with
    | none => .error (cur.err .unexpectedEof)
    | some byte =>
      if byte = 101 then .ok ([], cur.advance 1)
      else do
        let (item, cur) ← parseValue fuel (depth + 1) cur
        let (items, cur) ← parseList fuel depth cur
        .ok (item :: items, cur)

/-- The loop of `parse_dict`, behind the last key. -/
def parseDict : ℕ → ℕ → Option Bytes → Cursor → Except DecodeError (List (Bytes × Value) × Cursor)
  | 0, _, _, cur => .error (cur.err .unexpectedEof)
  | fuel + 1, depth, last, cur =>
    match cur.peek with
    | none => .error (cur.err .unexpectedEof)
    | some byte =>
      if byte = 101 then .ok ([], cur.advance 1)
      else do
        let (key, cur) ← parseKey last cur
        let (value, cur) ← parseValue fuel (depth + 1) cur
        let (entries, cur) ← parseDict fuel depth (some key) cur
        .ok ((key, value) :: entries, cur)

end

/-- Enough for every value in so many bytes: a byte is consumed at every second call. -/
def fuelFor (length : ℕ) : ℕ := 2 * length + 1

/-- A value at the beginning of the input, and the rest of the input. -/
def decodePrefixWith (input : Bytes) : Except DecodeError (Value × Bytes) := do
  let (value, cur) ← parseValue opts (fuelFor input.length) 0 (.new input)
  .ok (value, cur.rest)

/-- A value that is the whole input. -/
def decodeWith (input : Bytes) : Except DecodeError Value := do
  let (value, cur) ← parseValue opts (fuelFor input.length) 0 (.new input)
  if cur.rest ≠ [] then .error (cur.err .trailingData) else .ok value

/-! ### The walkers -/

mutual

/-- Walks over one value and builds nothing. -/
def skipOne : ℕ → ℕ → Cursor → Except DecodeError Cursor
  | 0, _, cur => .error (cur.err .unexpectedEof)
  | fuel + 1, depth, cur =>
    if opts.maxDepth < depth then .error (cur.err (.depthExceeded opts.maxDepth))
    else
      match cur.peek with
      | none => .error (cur.err .unexpectedEof)
      | some byte =>
        if byte = 105 then do
          let (_, cur) ← parseInt cur
          .ok cur
        else if byte = 108 then skipList fuel depth (cur.advance 1)
        else if byte = 100 then skipDict fuel depth none (cur.advance 1)
        else if isDigit byte then do
          let (_, cur) ← parseBytes cur
          .ok cur
        else .error (cur.err (.unexpectedByte byte))

/-- Walks over the items of a list up to its end. -/
def skipList : ℕ → ℕ → Cursor → Except DecodeError Cursor
  | 0, _, cur => .error (cur.err .unexpectedEof)
  | fuel + 1, depth, cur =>
    match cur.peek with
    | none => .error (cur.err .unexpectedEof)
    | some byte =>
      if byte = 101 then .ok (cur.advance 1)
      else do
        let cur ← skipOne fuel (depth + 1) cur
        skipList fuel depth cur

/-- Walks over the entries of a dictionary up to its end. -/
def skipDict : ℕ → ℕ → Option Bytes → Cursor → Except DecodeError Cursor
  | 0, _, _, cur => .error (cur.err .unexpectedEof)
  | fuel + 1, depth, last, cur =>
    match cur.peek with
    | none => .error (cur.err .unexpectedEof)
    | some byte =>
      if byte = 101 then .ok (cur.advance 1)
      else do
        let (key, cur) ← parseKey last cur
        let cur ← skipOne fuel (depth + 1) cur
        skipDict fuel depth (some key) cur

end

/-- The bytes that the value at the start of the input takes. -/
def skipValueWith (input : Bytes) : Except DecodeError (ℕ × ℕ) := do
  let cur ← skipOne opts (fuelFor input.length) 0 (.new input)
  .ok (0, cur.pos)

end

/-- The loop of `dict_value_span`: the span of the value of the key, once it is found. -/
def spanLoop (opts : DecodeOptions) (key : Bytes) :
    ℕ → Option Bytes → Option (ℕ × ℕ) → Cursor → Except DecodeError (Option (ℕ × ℕ))
  | 0, _, _, cur => .error (cur.err .unexpectedEof)
  | fuel + 1, last, found, cur =>
    match cur.peek with
    | none => .error (cur.err .unexpectedEof)
    | some byte =>
      if byte = 101 then .ok found
      else do
        let (thisKey, atValue) ← parseKey last cur
        let cur ← skipOne opts fuel 1 atValue
        let found := if thisKey = key ∧ found = none then some (atValue.pos, cur.pos) else found
        spanLoop opts key fuel (some thisKey) found cur

/-- `dict_value_span`: where the value of a key of the outer dictionary stands. -/
def dictValueSpan (input key : Bytes) : Except DecodeError (Option (ℕ × ℕ)) :=
  let cur := Cursor.new input
  match cur.peek with
  | none => .error (cur.err .unexpectedEof)
  | some first =>
    if first = 100 then spanLoop default key (fuelFor input.length) none none (cur.advance 1)
    else .error (cur.err (.unexpectedByte first))

end Sporos.Vendor.Bencode
