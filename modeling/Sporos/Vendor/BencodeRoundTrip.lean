import Mathlib
import Sporos.Lib.Loop
import Sporos.Vendor.Bencode

/-! # The decoder accepts the encodings

What is written is read back, before any bytes that follow (`parses_value`), and what is read is
what the encoder writes of it (`written_of_parse`): the strict decoder accepts the encodings of the
values within its limits, each as the value it is the encoding of, and nothing else
(`decodeWith_eq_ok_iff`). -/

namespace Sporos.Vendor.Bencode

open Sporos.Lib.Loop
open Sporos.Lib.JsonNumbers

/-! ### What is written -/

/-- An entry of a dictionary as it is written. -/
def encodeEntry (entry : Bytes × Value) : Bytes := writeBytes entry.1 ++ encode entry.2

mutual

theorem encodeInto_eq : ∀ (value : Value) (out : Bytes), encodeInto value out = out ++ encode value
  | .int i, out => by simp [encodeInto, encode]
  | .bytes b, out => by simp [encodeInto, encode]
  | .list items, out => by
    simp only [encodeInto, encode, encodeItems_eq items, List.nil_append, List.append_assoc]
  | .dict entries, out => by
    simp only [encodeInto, encode, encodeEntries_eq entries, List.nil_append, List.append_assoc]

theorem encodeItems_eq : ∀ (items : List Value) (out : Bytes),
    encodeItems items out = out ++ items.flatMap encode
  | [], out => by simp [encodeItems]
  | item :: items, out => by
    rw [encodeItems, encodeItems_eq items, encodeInto_eq item, List.flatMap_cons, List.append_assoc]

theorem encodeEntries_eq : ∀ (entries : List (Bytes × Value)) (out : Bytes),
    encodeEntries entries out = out ++ entries.flatMap encodeEntry
  | [], out => by simp [encodeEntries]
  | (key, value) :: entries, out => by
    rw [encodeEntries, encodeEntries_eq entries, encodeInto_eq value, List.flatMap_cons]
    simp only [encodeEntry, List.append_assoc]

end

theorem encode_int (i : ℤ) : encode (.int i) = 105 :: writeInt i ++ [101] := rfl

theorem encode_bytes (b : Bytes) : encode (.bytes b) = writeBytes b := rfl

theorem encode_list (items : List Value) :
    encode (.list items) = 108 :: items.flatMap encode ++ [101] := by
  rw [encode, encodeInto, encodeItems_eq]
  rfl

theorem encode_dict (entries : List (Bytes × Value)) :
    encode (.dict entries) = 100 :: entries.flatMap encodeEntry ++ [101] := by
  rw [encode, encodeInto, encodeEntries_eq]
  rfl

/-! ### Values -/

mutual

/-- The lists and dictionaries around the innermost value. -/
def Value.depth : Value → ℕ
  | .int _ => 0
  | .bytes _ => 0
  | .list items => itemsDepth items
  | .dict entries => entriesDepth entries

/-- How deep the items of a list go, counted from the list. -/
def itemsDepth : List Value → ℕ
  | [] => 0
  | item :: items => max (item.depth + 1) (itemsDepth items)

/-- How deep the entries of a dictionary go, counted from the dictionary. -/
def entriesDepth : List (Bytes × Value) → ℕ
  | [] => 0
  | (_, value) :: entries => max (value.depth + 1) (entriesDepth entries)

end

mutual

/-- The nodes of the tree. -/
def Value.nodes : Value → ℕ
  | .int _ => 1
  | .bytes _ => 1
  | .list items => itemsNodes items + 1
  | .dict entries => entriesNodes entries + 1

/-- How many values the items of a list are made of. -/
def itemsNodes : List Value → ℕ
  | [] => 0
  | item :: items => item.nodes + itemsNodes items

/-- How many values the entries of a dictionary are made of. -/
def entriesNodes : List (Bytes × Value) → ℕ
  | [] => 0
  | (_, value) :: entries => value.nodes + entriesNodes entries

end

mutual

/-- What the types of the fields promise: an integer is an `i64`, a length a `usize`, and the keys
of a dictionary are in order. -/
def Value.WellFormed : Value → Prop
  | .int i => -2 ^ 63 ≤ i ∧ i < 2 ^ 63
  | .bytes b => b.length < 2 ^ 64
  | .list items => ItemsWellFormed items
  | .dict entries => (entries.map Prod.fst).Pairwise (· < ·) ∧ EntriesWellFormed entries

/-- Every item of a list is well formed. -/
def ItemsWellFormed : List Value → Prop
  | [] => True
  | item :: items => item.WellFormed ∧ ItemsWellFormed items

/-- Every entry of a dictionary is well formed, its key as well as its value. -/
def EntriesWellFormed : List (Bytes × Value) → Prop
  | [] => True
  | (key, value) :: entries => key.length < 2 ^ 64 ∧ value.WellFormed ∧ EntriesWellFormed entries

end

/-! ### Numbers and byte strings are read back -/

section

variable {rest : Bytes} {pos nodes : ℕ}

theorem Cursor.advance_append (written : Bytes) :
    (Cursor.mk (written ++ rest) pos nodes).advance written.length = ⟨rest,
      pos + written.length, nodes⟩ := by
  simp [Cursor.advance]

theorem Cursor.advance_cons (b : UInt8) :
    (Cursor.mk (b :: rest) pos nodes).advance 1 = ⟨rest, pos + 1, nodes⟩ := rfl

theorem Cursor.digits_writeNat (n : ℕ) {b : UInt8} (hb : isDigit b = false) :
    (Cursor.mk (writeNat n ++ b :: rest) pos nodes).digits = writeNat n := by
  rw [Cursor.digits, List.takeWhile_append_of_pos (writeNat_spec n).1,
    List.takeWhile_cons_of_neg (by simp [hb]),
    List.append_nil]

theorem Cursor.expect_cons (b : UInt8) (kind : DecodeErrorKind) :
    (Cursor.mk (b :: rest) pos nodes).expect b kind = .ok ⟨rest, pos + 1, nodes⟩ := by
  simp [Cursor.expect, Cursor.peek, Cursor.advance]

theorem not_leadingZero_writeNat (n : ℕ) : ¬ LeadingZero (writeNat n) := by
  rintro ⟨hlength, hhead⟩
  exact (writeNat_spec n).2.2.1 ⟨hhead, by omega⟩

/-- The first digit, which is none of the letters of the format. -/
theorem writeNat_cons (n : ℕ) : ∃ b digits, writeNat n = b :: digits ∧ isDigit b = true
    ∧ b ≠ 45 ∧ b ≠ 100 ∧ b ≠ 101 ∧ b ≠ 105 ∧ b ≠ 108 := by
  obtain ⟨hdigits, hne, -⟩ := writeNat_spec n
  obtain ⟨b, digits, heq⟩ := List.exists_cons_of_ne_nil hne
  have hb : isDigit b = true := hdigits b (by rw [heq]; exact List.mem_cons_self)
  refine ⟨b, digits, heq, hb, ?_, ?_, ?_, ?_, ?_⟩ <;> rintro rfl <;> exact absurd hb (by decide)

theorem length_writeBytes (b : Bytes) :
    (writeBytes b).length = (writeNat b.length).length + 1 + b.length := by
  simp only [writeBytes, List.length_append, List.length_cons]
  omega

variable (rest pos nodes)

theorem parses_bytes (b : Bytes) (hpos : pos + (writeBytes b).length < 2 ^ 64) :
    parseBytes ⟨writeBytes b ++ rest, pos, nodes⟩ = .ok (b,
      ⟨rest, pos + (writeBytes b).length, nodes⟩) := by
  have hlength := length_writeBytes b
  obtain ⟨-, hne, -, hvalue⟩ := writeNat_spec b.length
  have hrest : writeBytes b ++ rest = writeNat b.length ++ 58 :: (b ++ rest) := by
    simp [writeBytes]
  unfold parseBytes
  simp only [hrest, Cursor.digits_writeNat b.length (show isDigit 58 = false by decide), hvalue]
  rw [if_neg (not_or.mpr ⟨hne, not_leadingZero_writeNat _⟩), Cursor.advance_append,
    Cursor.expect_cons]
  change (if 2 ^ 64 ≤ b.length then _ else Cursor.take _ _) = _
  rw [if_neg (by omega), Cursor.take, if_neg (by dsimp only; omega), if_neg (by simp),
    Cursor.advance_append]
  simp only [List.take_left, hlength, Nat.add_assoc]

theorem parses_digits (start : Cursor) (negative : Bool) (n : ℕ) (hzero : negative = true → n ≠ 0)
    (hrange : n < 2 ^ 63 ∨ (negative = true ∧ n = 2 ^ 63)) :
    parseDigits start negative ⟨writeNat n ++ 101 :: rest, pos, nodes⟩ =
      .ok (if negative then -(n : ℤ) else n, ⟨rest, pos + (writeNat n).length + 1, nodes⟩) := by
  obtain ⟨-, hne, -, hvalue⟩ := writeNat_spec n
  have hone : ¬ (negative = true ∧ writeNat n = [48]) := by
    rintro ⟨hnegative, h⟩
    rw [h] at hvalue
    exact hzero hnegative (by rw [← hvalue]; rfl)
  unfold parseDigits
  simp only [Cursor.digits_writeNat n (show isDigit 101 = false by decide), hvalue]
  rw [if_neg (by simp [hne, not_leadingZero_writeNat, hone]), Cursor.advance_append,
    Cursor.expect_cons]
  change (if _ then _ else _) = _
  cases negative with
  | false =>
    rw [if_neg (by
      simp only [Bool.false_eq_true, if_false, false_and, or_false] at hrange ⊢
      omega)]
  | true => rw [if_neg (by simp only [if_true, true_and] at hrange ⊢; omega)]

theorem parses_int {i : ℤ} (hi : -2 ^ 63 ≤ i ∧ i < 2 ^ 63) :
    parseInt ⟨encode (.int i) ++ rest, pos, nodes⟩ =
      .ok (i, ⟨rest, pos + (encode (.int i)).length, nodes⟩) := by
  have hrest : encode (.int i) ++ rest = 105 :: (writeInt i ++ 101 :: rest) := by
    simp [encode_int]
  unfold parseInt
  rw [hrest, Cursor.advance_cons]
  cases i with
  | ofNat n =>
    obtain ⟨b, digits, hcons, -, hminus, -⟩ := writeNat_cons n
    have hpeek : (Cursor.mk (writeInt (.ofNat n) ++ 101 :: rest) (pos + 1) nodes).peek ≠
        some 45 := by
      simpa [Cursor.peek, writeInt, hcons] using hminus
    dsimp only
    rw [if_neg hpeek, show writeInt (.ofNat n) = writeNat n from rfl,
      parses_digits rest _ nodes _ false n (by simp)
        (.inl (by simp only [Int.ofNat_eq_natCast] at hi; omega))]
    simp [encode_int, writeInt, Nat.add_assoc, Nat.add_comm 1]
  | negSucc n =>
    have hpeek : (Cursor.mk (writeInt (.negSucc n) ++ 101 :: rest) (pos + 1) nodes).peek =
      some 45 := rfl
    have hrange : n + 1 < 2 ^ 63 ∨ (true = true ∧ n + 1 = 2 ^ 63) := by
      rw [Int.negSucc_eq] at hi
      simp only [true_and]
      omega
    dsimp only
    rw [if_pos hpeek, show writeInt (.negSucc n) = 45 :: writeNat (n + 1) from rfl,
      List.cons_append, Cursor.advance_cons,
      parses_digits rest _ nodes _ true (n + 1) (by simp) hrange]
    have hvalue : -((n + 1 : ℕ) : ℤ) = Int.negSucc n := rfl
    have hlength : (encode (.int (.negSucc n))).length = (writeNat (n + 1)).length + 3 := by
      simp [encode_int, writeInt]
    rw [if_pos rfl, hvalue, hlength]
    simp only [Except.ok.injEq, Prod.mk.injEq, Cursor.mk.injEq, true_and, and_true]
    omega

end

/-! ### Values are read back -/

theorem encode_cons (value : Value) : ∃ b rest, encode value = b :: rest ∧ b ≠ 101 := by
  cases value with
  | int i => exact ⟨105, _, encode_int i, by decide⟩
  | bytes b =>
    obtain ⟨first, digits, hcons, -, -, -, hend, -⟩ := writeNat_cons b.length
    exact ⟨first, digits ++ 58 :: b, by rw [encode_bytes, writeBytes, hcons,
      List.cons_append], hend⟩
  | list items => exact ⟨108, _, encode_list items, by decide⟩
  | dict entries => exact ⟨100, _, encode_dict entries, by decide⟩

theorem length_encode_pos (value : Value) : 0 < (encode value).length := by
  obtain ⟨b, rest, hcons, -⟩ := encode_cons value
  rw [hcons]
  exact Nat.succ_pos _

theorem length_encode_list (items : List Value) :
    (encode (.list items)).length = (items.flatMap encode).length + 2 := by
  simp [encode_list]

theorem length_encode_dict (entries : List (Bytes × Value)) :
    (encode (.dict entries)).length = (entries.flatMap encodeEntry).length + 2 := by
  simp [encode_dict]

theorem parseKey_of_lt {last : Option Bytes} {key : Bytes} {cur behind : Cursor}
    (hlast : ∀ prev ∈ last, prev < key) (hkey : parseBytes cur = .ok (key, behind)) :
    parseKey last cur = .ok (key, behind) := by
  unfold parseKey
  rw [hkey]
  cases last with
  | none => rfl
  | some prev =>
    have hlt : prev < key := hlast prev rfl
    change (if _ then _ else _) = _
    rw [if_neg (Std.ne_of_lt hlt).symm, if_neg (List.lt_asymm hlt)]

section

variable {opts : DecodeOptions} {fuel depth : ℕ} {cur : Cursor}

/-- The cursor after its node is charged. -/
def Cursor.charged (cur : Cursor) : Cursor := { cur with nodes := cur.nodes + 1 }

/-- What the decoder does with a value, by its first byte. -/
theorem parseValue_of_peek (byte : UInt8) (hdepth : depth ≤ opts.maxDepth)
    (hpeek : cur.peek = some byte) (hnodes : cur.nodes < opts.maxNodes) :
    parseValue opts (fuel + 1) depth cur =
      if byte = 105 then (parseInt cur.charged).map fun read => (.int read.1, read.2)
      else if byte = 108 then
        (parseList opts fuel depth (cur.charged.advance 1)).map fun read => (.list read.1, read.2)
      else if byte = 100 then
        (parseDict opts fuel depth none (cur.charged.advance 1)).map fun read =>
          (.dict read.1, read.2)
      else if isDigit byte then (parseBytes cur.charged).map fun read => (.bytes read.1, read.2)
      else .error (cur.err (.unexpectedByte byte)) := by
  rw [parseValue, if_neg (not_lt.mpr hdepth), hpeek]
  simp only [Cursor.chargeNode, if_neg (not_le.mpr hnodes)]
  rfl

mutual

/-- **A value within the limits is read back**, whatever follows. -/
theorem parses_value : ∀ (value : Value) (fuel depth : ℕ) (rest : Bytes) (pos nodes : ℕ),
    value.WellFormed →
    2 * (encode value).length + 1 ≤ fuel → depth + value.depth ≤ opts.maxDepth →
    nodes + value.nodes ≤ opts.maxNodes → pos + (encode value).length < 2 ^ 64 →
    parseValue opts fuel depth ⟨encode value ++ rest, pos, nodes⟩ =
      .ok (value, ⟨rest, pos + (encode value).length, nodes + value.nodes⟩)
  | value, 0, depth, rest, pos, nodes, _, hfuel, _, _, _ => by omega
  | .int i, fuel + 1, depth, rest, pos, nodes, hvalue, hfuel, hdepth, hnodes, hpos => by
    simp only [Value.depth, Value.nodes] at hdepth hnodes
    rw [parseValue_of_peek 105 (by omega) rfl (by dsimp only; omega), if_pos rfl]
    change (parseInt ⟨encode (.int i) ++ rest, pos, nodes + 1⟩).map _ = _
    rw [parses_int rest pos (nodes + 1) hvalue]
    rfl
  | .bytes b, fuel + 1, depth, rest, pos, nodes, hvalue, hfuel, hdepth, hnodes, hpos => by
    simp only [Value.depth, Value.nodes] at hdepth hnodes
    obtain ⟨first, digits, hcons, hdigit, -, hd, -, hi, hl⟩ := writeNat_cons b.length
    have hpeek : (Cursor.mk (encode (.bytes b) ++ rest) pos nodes).peek = some first := by
      rw [Cursor.peek, encode_bytes, writeBytes, hcons]
      rfl
    rw [parseValue_of_peek first (by omega) hpeek (by dsimp only; omega), if_neg hi, if_neg hl,
      if_neg hd, if_pos hdigit]
    change (parseBytes ⟨writeBytes b ++ rest, pos, nodes + 1⟩).map _ = _
    rw [parses_bytes rest pos (nodes + 1) b hpos]
    rfl
  | .list items, fuel + 1, depth, rest, pos, nodes, hvalue, hfuel, hdepth, hnodes, hpos => by
    simp only [Value.depth, Value.nodes, length_encode_list] at hdepth hnodes hpos hfuel ⊢
    have hitems :=
      parses_items items fuel depth rest (pos + 1) (nodes + 1) hvalue (by omega) hdepth (by omega)
      (by omega)
    rw [encode_list, List.cons_append, List.cons_append, List.append_assoc, List.singleton_append,
      parseValue_of_peek 108 (by omega) rfl (by dsimp only; omega), if_neg (by decide), if_pos rfl]
    change (parseList opts fuel depth ⟨items.flatMap encode ++ 101 :: rest, pos + 1,
      nodes + 1⟩).map _ = _
    rw [hitems]
    simp only [Except.map, Except.ok.injEq, Prod.mk.injEq, Cursor.mk.injEq, true_and]
    omega
  | .dict entries, fuel + 1, depth, rest, pos, nodes, hvalue, hfuel, hdepth, hnodes, hpos => by
    simp only [Value.depth, Value.nodes, length_encode_dict] at hdepth hnodes hpos hfuel ⊢
    have hentries :=
      parses_entries entries fuel depth none rest (pos + 1) (nodes + 1) hvalue.1 (by simp) hvalue.2
      (by omega) hdepth (by omega) (by omega)
    rw [encode_dict, List.cons_append, List.cons_append, List.append_assoc, List.singleton_append,
      parseValue_of_peek 100 (by omega) rfl (by dsimp only; omega), if_neg (by decide),
      if_neg (by decide), if_pos rfl]
    change (parseDict opts fuel depth none ⟨entries.flatMap encodeEntry ++ 101 :: rest, pos + 1,
      nodes + 1⟩).map _ = _
    rw [hentries]
    simp only [Except.map, Except.ok.injEq, Prod.mk.injEq, Cursor.mk.injEq, true_and]
    omega

theorem parses_items : ∀ (items : List Value) (fuel depth : ℕ) (rest : Bytes) (pos nodes : ℕ),
    ItemsWellFormed items → 2 * (items.flatMap encode).length + 2 ≤ fuel →
    depth + itemsDepth items ≤ opts.maxDepth → nodes + itemsNodes items ≤ opts.maxNodes →
    pos + (items.flatMap encode).length < 2 ^ 64 →
    parseList opts fuel depth ⟨items.flatMap encode ++ 101 :: rest, pos, nodes⟩ =
      .ok (items, ⟨rest, pos + (items.flatMap encode).length + 1, nodes + itemsNodes items⟩)
  | items, 0, depth, rest, pos, nodes, _, hfuel, _, _, _ => by omega
  | [], fuel + 1, depth, rest, pos, nodes, hitems, hfuel, hdepth, hnodes, hpos => by
    simp [parseList, Cursor.peek, Cursor.advance, itemsNodes]
  | item :: items, fuel + 1, depth, rest, pos, nodes, hitems, hfuel, hdepth, hnodes, hpos => by
    have hpositive := length_encode_pos item
    simp only [itemsDepth, itemsNodes, List.flatMap_cons, List.length_append, List.append_assoc]
      at hdepth hnodes hpos hfuel ⊢
    have hitem := parses_value item fuel (depth + 1) (items.flatMap encode
      ++ 101 :: rest) pos nodes hitems.1
      (by omega) (by omega) (by omega) (by omega)
    have hrest :=
      parses_items items fuel depth rest (pos + (encode item).length) (nodes + item.nodes) hitems.2
      (by omega) (by omega) (by omega) (by omega)
    obtain ⟨first, written, hcons, hend⟩ := encode_cons item
    have hpeek : (Cursor.mk (encode item ++ (items.flatMap encode ++ 101 :: rest)) pos nodes).peek =
        some first := by
      rw [Cursor.peek, hcons]
      rfl
    rw [parseList, hpeek]
    dsimp only
    rw [if_neg hend, hitem]
    change (parseList opts fuel depth _ >>= _) = _
    rw [hrest]
    simp only [bind, Except.bind, Except.ok.injEq, Prod.mk.injEq, Cursor.mk.injEq, true_and]
    omega

theorem parses_entries :
    ∀ (entries : List (Bytes × Value)) (fuel depth : ℕ) (last : Option Bytes) (rest : Bytes)
    (pos nodes : ℕ), (entries.map Prod.fst).Pairwise (· < ·) →
    (∀ prev ∈ last, ∀ entry ∈ entries, prev < entry.1) → EntriesWellFormed entries →
    2 * (entries.flatMap encodeEntry).length + 2 ≤ fuel →
      depth + entriesDepth entries ≤ opts.maxDepth →
    nodes + entriesNodes entries ≤ opts.maxNodes →
      pos + (entries.flatMap encodeEntry).length < 2 ^ 64 →
    parseDict opts fuel depth last ⟨entries.flatMap encodeEntry ++ 101 :: rest, pos, nodes⟩ =
      .ok (entries, ⟨rest, pos + (entries.flatMap encodeEntry).length + 1,
        nodes + entriesNodes entries⟩)
  | entries, 0, depth, last, rest, pos, nodes, _, _, _, hfuel, _, _, _ => by omega
  | [], fuel + 1, depth, last, rest, pos, nodes, hkeys, hlast, hentries, hfuel,
      hdepth, hnodes, hpos => by
    simp [parseDict, Cursor.peek, Cursor.advance, entriesNodes]
  | (key, value) :: entries, fuel + 1, depth, last, rest, pos, nodes, hkeys, hlast,
      hentries, hfuel, hdepth,
      hnodes, hpos => by
    have hpositive := length_encode_pos (.bytes key)
    simp only [entriesDepth, entriesNodes, List.flatMap_cons, List.length_append,
      List.append_assoc, encodeEntry, encode_bytes] at hdepth hnodes hpos hfuel hpositive ⊢
    rw [List.map_cons, List.pairwise_cons] at hkeys
    have hkey := parseKey_of_lt (fun prev hprev => hlast prev hprev _ List.mem_cons_self)
      (parses_bytes (encode value ++ (entries.flatMap encodeEntry ++ 101 :: rest)) pos
        nodes key (by omega))
    have hvalue := parses_value value fuel (depth + 1) (entries.flatMap encodeEntry ++ 101 :: rest)
      (pos + (writeBytes key).length) nodes hentries.2.1 (by omega) (by omega) (by omega) (by omega)
    have hlast' : ∀ prev ∈ some key, ∀ entry ∈ entries, prev < entry.1 := by
      rintro prev ⟨⟩ entry hentry
      exact hkeys.1 _ (List.mem_map_of_mem hentry)
    have hrest := parses_entries entries fuel depth (some key) rest
      (pos + (writeBytes key).length + (encode value).length) (nodes + value.nodes) hkeys.2
      hlast' hentries.2.2 (by omega) (by omega) (by omega) (by omega)
    obtain ⟨first, written, hcons, hend⟩ := encode_cons (.bytes key)
    have hpeek : (Cursor.mk (writeBytes key ++ (encode value
        ++ (entries.flatMap encodeEntry ++ 101 :: rest))) pos nodes).peek = some first := by
      rw [Cursor.peek, ← encode_bytes, hcons]
      rfl
    rw [parseDict, hpeek]
    dsimp only
    rw [if_neg hend, hkey]
    change (parseValue opts fuel (depth + 1) _ >>= _) = _
    rw [hvalue]
    change (parseDict opts fuel depth _ _ >>= _) = _
    rw [hrest]
    simp only [bind, Except.bind, Except.ok.injEq, Prod.mk.injEq, Cursor.mk.injEq, true_and]
    omega

end

end

/-! ### What is read was written -/

/-- One cursor is behind another one by the bytes between them, and by the nodes that these are
charged. -/
structure Behind (cur : Cursor) (written : Bytes) (charged : ℕ) (cur' : Cursor) : Prop where
  rest : cur.rest = written ++ cur'.rest
  pos : cur'.pos = cur.pos + written.length
  nodes : cur'.nodes = cur.nodes + charged

theorem Behind.trans {cur mid cur' : Cursor} {written written' : Bytes} {charged charged' : ℕ}
    (h : Behind cur written charged mid) (h' : Behind mid written' charged' cur') :
    Behind cur (written ++ written') (charged + charged') cur' where
  rest := by rw [h.rest, h'.rest, List.append_assoc]
  pos := by rw [h'.pos, h.pos, List.length_append, Nat.add_assoc]
  nodes := by rw [h'.nodes, h.nodes, Nat.add_assoc]

theorem behind_advance_one {cur : Cursor} {byte : UInt8} (h : cur.peek = some byte) :
    Behind cur [byte] 0 (cur.advance 1) := by
  obtain ⟨rest, hrest⟩ := List.head?_eq_some_iff.mp h
  exact ⟨by simp [Cursor.advance, hrest], rfl, rfl⟩

theorem behind_digits (cur : Cursor) : Behind cur cur.digits 0 (cur.advance cur.digits.length) where
  rest := by
    have hdrop : cur.rest.drop (cur.rest.takeWhile isDigit).length = cur.rest.dropWhile isDigit :=
      calc cur.rest.drop (cur.rest.takeWhile isDigit).length
        _ = (cur.rest.takeWhile isDigit ++ cur.rest.dropWhile isDigit).drop
            (cur.rest.takeWhile isDigit).length := by rw [List.takeWhile_append_dropWhile]
        _ = cur.rest.dropWhile isDigit := List.drop_left
    rw [Cursor.advance, Cursor.digits, hdrop, List.takeWhile_append_dropWhile]
  pos := rfl
  nodes := rfl

theorem behind_of_expect {cur cur' : Cursor} {byte : UInt8} {kind : DecodeErrorKind}
    (h : cur.expect byte kind = .ok cur') : Behind cur [byte] 0 cur' := by
  unfold Cursor.expect at h
  cases hpeek : cur.peek with
  | none => simp [hpeek] at h
  | some found =>
    rw [hpeek] at h
    dsimp only at h
    split_ifs at h with hfound
    obtain rfl := Except.ok.inj h
    exact hfound ▸ behind_advance_one hpeek

theorem writeNat_digits {cur : Cursor} (hne : cur.digits ≠ []) (hzero : ¬ LeadingZero cur.digits) :
    writeNat (digitsValue cur.digits) = cur.digits := by
  refine writeNat_digitsValue (fun b hb => List.mem_takeWhile_imp hb) hne ?_
  rintro ⟨hhead, hlength⟩
  refine hzero ⟨?_, hhead⟩
  have := List.length_pos_of_ne_nil hne
  omega

theorem behind_of_parseBytes {cur cur' : Cursor} {b : Bytes} (h : parseBytes cur = .ok (b, cur')) :
    Behind cur (writeBytes b) 0 cur' ∧ b.length < 2 ^ 64 := by
  unfold parseBytes at h
  dsimp only at h
  by_cases hdigits : cur.digits = [] ∨ LeadingZero cur.digits
  · rw [if_pos hdigits] at h
    cases h
  rw [if_neg hdigits] at h
  obtain ⟨hne, hzero⟩ := not_or.mp hdigits
  obtain ⟨colon, hcolon, h⟩ := bind_eq_ok.mp h
  split_ifs at h with hoverflow
  unfold Cursor.take at h
  split_ifs at h with hpos hlength
  obtain ⟨rfl, rfl⟩ := Prod.mk.inj (Except.ok.inj h)
  have htaken : (colon.rest.take (digitsValue cur.digits)).length = digitsValue cur.digits := by
    rw [List.length_take]
    omega
  have hbytes : Behind colon (colon.rest.take (digitsValue cur.digits)) 0
      (colon.advance (digitsValue cur.digits)) :=
    ⟨(List.take_append_drop _ _).symm, by rw [htaken]; rfl, rfl⟩
  refine ⟨?_, by omega⟩
  have hall := ((behind_digits cur).trans (behind_of_expect hcolon)).trans hbytes
  rwa [writeBytes, htaken, writeNat_digits hne hzero, ← List.singleton_append, ← List.append_assoc]

theorem behind_of_parseDigits {start cur cur' : Cursor} {negative : Bool} {i : ℤ}
    (h : parseDigits start negative cur = .ok (i, cur')) :
    Behind cur ((if negative then writeNat i.natAbs else writeNat i.toNat) ++ [101]) 0 cur'
      ∧ (if negative then i < 0 else 0 ≤ i) ∧ -2 ^ 63 ≤ i ∧ i < 2 ^ 63 := by
  unfold parseDigits at h
  dsimp only at h
  by_cases hdigits : cur.digits = [] ∨ LeadingZero cur.digits
    ∨ (negative = true ∧ cur.digits = [48])
  · rw [if_pos hdigits] at h
    cases h
  rw [if_neg hdigits] at h
  simp only [not_or] at hdigits
  obtain ⟨hne, hzero, hminus⟩ := hdigits
  obtain ⟨behind, hbehind, h⟩ := bind_eq_ok.mp h
  have hwritten := writeNat_digits hne hzero
  have hall := (behind_digits cur).trans (behind_of_expect hbehind)
  cases negative with
  | false =>
    simp only [Bool.false_eq_true, if_false] at h ⊢
    split_ifs at h with hrange
    obtain ⟨rfl, rfl⟩ := Prod.mk.inj (Except.ok.inj h)
    rw [Int.toNat_natCast, hwritten]
    exact ⟨hall, by omega, by omega, by omega⟩
  | true =>
    simp only [if_true] at h ⊢
    split_ifs at h with hrange
    obtain ⟨rfl, rfl⟩ := Prod.mk.inj (Except.ok.inj h)
    have hpositive : digitsValue cur.digits ≠ 0 := by
      intro hvalue
      rw [hvalue] at hwritten
      exact hminus ⟨rfl, hwritten.symm⟩
    rw [Int.natAbs_neg, Int.natAbs_natCast, hwritten]
    exact ⟨hall, by omega, by omega, by omega⟩

theorem behind_of_parseInt {cur cur' : Cursor} {i : ℤ} (hpeek : cur.peek = some 105)
    (h : parseInt cur = .ok (i, cur')) :
    Behind cur (encode (.int i)) 0 cur' ∧ -2 ^ 63 ≤ i ∧ i < 2 ^ 63 := by
  unfold parseInt at h
  dsimp only at h
  have hi := behind_advance_one hpeek
  split_ifs at h with hminus
  · obtain ⟨hdigits, hnegative, hrange⟩ := behind_of_parseDigits h
    have hall := (hi.trans (behind_advance_one hminus)).trans hdigits
    cases i with
    | ofNat n =>
      simp only [if_true, Int.ofNat_eq_natCast] at hnegative
      omega
    | negSucc n => exact ⟨hall, hrange⟩
  · obtain ⟨hdigits, hpositive, hrange⟩ := behind_of_parseDigits h
    have hall := hi.trans hdigits
    cases i with
    | ofNat n => exact ⟨hall, hrange⟩
    | negSucc n => simp at hpositive

theorem behind_of_parseKey {last : Option Bytes} {cur cur' : Cursor} {key : Bytes}
    (h : parseKey last cur = .ok (key, cur')) :
    Behind cur (writeBytes key) 0 cur' ∧ key.length < 2 ^ 64 ∧ ∀ prev ∈ last, prev < key := by
  unfold parseKey at h
  obtain ⟨⟨read, behind⟩, hread, h⟩ := bind_eq_ok.mp h
  obtain ⟨hbehind, hlength⟩ := behind_of_parseBytes hread
  cases last with
  | none =>
    obtain ⟨rfl, rfl⟩ := Prod.mk.inj (Except.ok.inj h)
    exact ⟨hbehind, hlength, by simp⟩
  | some prev =>
    dsimp only at h
    split_ifs at h with hne hlt
    obtain ⟨rfl, rfl⟩ := Prod.mk.inj (Except.ok.inj h)
    refine ⟨hbehind, hlength, ?_⟩
    rintro prev' ⟨⟩
    exact Std.lt_of_le_of_ne (List.not_lt.mp hlt) (Ne.symm hne)

section

variable {opts : DecodeOptions}

/-- What the decoder promises of a value it has read. -/
structure Written (opts : DecodeOptions) (depth : ℕ) (cur : Cursor) (value : Value)
    (cur' : Cursor) : Prop where
  behind : Behind cur (encode value) value.nodes cur'
  wellFormed : value.WellFormed
  depth : depth + value.depth ≤ opts.maxDepth
  nodes : cur'.nodes ≤ opts.maxNodes

/-- The items of a list stand at the cursor, within the limits, up to the end of the list. -/
structure ItemsWritten (opts : DecodeOptions) (depth : ℕ) (cur : Cursor) (items : List Value)
    (cur' : Cursor) : Prop where
  behind : Behind cur (items.flatMap encode ++ [101]) (itemsNodes items) cur'
  wellFormed : ItemsWellFormed items
  depth : depth + itemsDepth items ≤ opts.maxDepth
  nodes : cur'.nodes ≤ opts.maxNodes

/-- The entries of a dictionary stand at the cursor with rising keys, within the limits, up to its
end. -/
structure EntriesWritten (opts : DecodeOptions) (depth : ℕ) (last : Option Bytes) (cur : Cursor)
    (entries : List (Bytes × Value)) (cur' : Cursor) : Prop where
  behind : Behind cur (entries.flatMap encodeEntry ++ [101]) (entriesNodes entries) cur'
  keys : (entries.map Prod.fst).Pairwise (· < ·)
  last : ∀ prev ∈ last, ∀ entry ∈ entries, prev < entry.1
  wellFormed : EntriesWellFormed entries
  depth : depth + entriesDepth entries ≤ opts.maxDepth
  nodes : cur'.nodes ≤ opts.maxNodes

theorem Behind.charged {cur cur' : Cursor} {written : Bytes} {charged : ℕ}
    (h : Behind cur.charged written charged cur') : Behind cur written (charged + 1) cur' :=
  ⟨h.rest, h.pos, by rw [h.nodes, Cursor.charged, Nat.add_assoc, Nat.add_comm 1]⟩

variable (opts) in
/-- **What is read was written**: by induction on the fuel, for a value and for what is left of a
list and of a dictionary. -/
theorem written_of_parse : ∀ fuel : ℕ,
    (∀ {depth cur value cur'}, parseValue opts fuel depth cur = .ok (value, cur') →
      Written opts depth cur value cur')
    ∧ (∀ {depth cur items cur'}, parseList opts fuel depth cur = .ok (items, cur') →
      depth ≤ opts.maxDepth →
      cur.nodes ≤ opts.maxNodes → ItemsWritten opts depth cur items cur')
    ∧ ∀ {depth last cur entries cur'}, parseDict opts fuel depth last cur = .ok (entries, cur') →
      depth ≤ opts.maxDepth → cur.nodes ≤ opts.maxNodes →
        EntriesWritten opts depth last cur entries cur'
  | 0 => by
    refine ⟨fun h => ?_, fun h => ?_, fun h => ?_⟩
    · rw [parseValue] at h
      cases h
    · rw [parseList] at h
      cases h
    · rw [parseDict] at h
      cases h
  | fuel + 1 => by
    obtain ⟨ihValue, ihList, ihDict⟩ := written_of_parse fuel
    refine ⟨fun {depth cur value cur'} h => ?_, fun {depth cur items cur'} h hdepth hnodes => ?_,
      fun {depth last cur entries cur'} h hdepth hnodes => ?_⟩
    · by_cases hdepth : opts.maxDepth < depth
      · rw [parseValue, if_pos hdepth] at h
        cases h
      by_cases hnodes : opts.maxNodes ≤ cur.nodes
      · rw [parseValue, if_neg hdepth] at h
        cases hpeek : cur.peek <;> simp [hpeek, Cursor.chargeNode, hnodes, bind, Except.bind] at h
      rw [not_lt] at hdepth
      rw [not_le] at hnodes
      cases hpeek : cur.peek with
      | none =>
        rw [parseValue, if_neg (not_lt.mpr hdepth), hpeek] at h
        cases h
      | some byte =>
        rw [parseValue_of_peek byte hdepth hpeek hnodes] at h
        have hcharged : cur.charged.nodes ≤ opts.maxNodes := hnodes
        have hsame : cur.charged.peek = some byte := hpeek
        split_ifs at h with hi hl hd hdigit
        · obtain ⟨⟨i, behind⟩, hint, heq⟩ := map_eq_ok h
          obtain ⟨rfl, rfl⟩ := Prod.mk.inj heq
          obtain ⟨hbehind, hrange⟩ := behind_of_parseInt (hi ▸ hsame) hint
          exact ⟨hbehind.charged, hrange, hdepth, by rw [hbehind.nodes]; exact hcharged⟩
        · obtain ⟨⟨items, behind⟩, hitems, heq⟩ := map_eq_ok h
          obtain ⟨rfl, rfl⟩ := Prod.mk.inj heq
          have hread := ihList hitems hdepth hcharged
          refine ⟨?_, hread.wellFormed, hread.depth, hread.nodes⟩
          have hall := (behind_advance_one (hl ▸ hsame)).trans hread.behind
          rw [encode_list, Value.nodes]
          exact (Nat.zero_add _ ▸ hall).charged
        · obtain ⟨⟨entries, behind⟩, hentries, heq⟩ := map_eq_ok h
          obtain ⟨rfl, rfl⟩ := Prod.mk.inj heq
          have hread := ihDict hentries hdepth hcharged
          refine ⟨?_, ⟨hread.keys, hread.wellFormed⟩, hread.depth, hread.nodes⟩
          have hall := (behind_advance_one (hd ▸ hsame)).trans hread.behind
          rw [encode_dict, Value.nodes]
          exact (Nat.zero_add _ ▸ hall).charged
        · obtain ⟨⟨b, behind⟩, hbytes, heq⟩ := map_eq_ok h
          obtain ⟨rfl, rfl⟩ := Prod.mk.inj heq
          obtain ⟨hbehind, hlength⟩ := behind_of_parseBytes hbytes
          exact ⟨hbehind.charged, hlength, hdepth, by rw [hbehind.nodes]; exact hcharged⟩
    · cases hpeek : cur.peek with
      | none => simp [parseList, hpeek] at h
      | some byte =>
        rw [parseList, hpeek] at h
        dsimp only at h
        by_cases hend : byte = 101
        · subst hend
          rw [if_pos rfl] at h
          obtain ⟨rfl, rfl⟩ := Prod.mk.inj (Except.ok.inj h)
          exact ⟨behind_advance_one hpeek, trivial, hdepth, hnodes⟩
        · rw [if_neg hend] at h
          obtain ⟨⟨item, mid⟩, hitem, h⟩ := bind_eq_ok.mp h
          obtain ⟨⟨rest, behind⟩, hrest, h⟩ := bind_eq_ok.mp h
          obtain ⟨rfl, rfl⟩ := Prod.mk.inj (Except.ok.inj h)
          have hfirst := ihValue hitem
          have hlater := ihList hrest hdepth hfirst.nodes
          have hinner := hfirst.depth
          have houter := hlater.depth
          refine ⟨?_, ⟨hfirst.wellFormed, hlater.wellFormed⟩, ?_, hlater.nodes⟩
          · rw [List.flatMap_cons, List.append_assoc, itemsNodes]
            exact hfirst.behind.trans hlater.behind
          · dsimp only [itemsDepth] at hinner houter ⊢
            omega
    · cases hpeek : cur.peek with
      | none => simp [parseDict, hpeek] at h
      | some byte =>
        rw [parseDict, hpeek] at h
        dsimp only at h
        by_cases hend : byte = 101
        · subst hend
          rw [if_pos rfl] at h
          obtain ⟨rfl, rfl⟩ := Prod.mk.inj (Except.ok.inj h)
          exact ⟨behind_advance_one hpeek, List.Pairwise.nil, by simp, trivial, hdepth, hnodes⟩
        · rw [if_neg hend] at h
          obtain ⟨⟨key, atValue⟩, hkey, h⟩ := bind_eq_ok.mp h
          obtain ⟨⟨value, mid⟩, hvalue, h⟩ := bind_eq_ok.mp h
          obtain ⟨⟨rest, behind⟩, hrest, h⟩ := bind_eq_ok.mp h
          obtain ⟨rfl, rfl⟩ := Prod.mk.inj (Except.ok.inj h)
          obtain ⟨hbehind, hlength, hgreater⟩ := behind_of_parseKey hkey
          have hfirst := ihValue hvalue
          have hlater := ihDict hrest hdepth hfirst.nodes
          have hinner := hfirst.depth
          have houter := hlater.depth
          have hkeys : ∀ entry ∈ rest, key < entry.1 := hlater.last key rfl
          refine ⟨?_, ?_, ?_, ⟨hlength, hfirst.wellFormed, hlater.wellFormed⟩, ?_, hlater.nodes⟩
          · rw [List.flatMap_cons, encodeEntry, List.append_assoc, List.append_assoc, entriesNodes]
            have hall := (hbehind.trans hfirst.behind).trans hlater.behind
            rwa [Nat.zero_add, List.append_assoc] at hall
          · rw [List.map_cons, List.pairwise_cons]
            exact ⟨by simpa using hkeys, hlater.keys⟩
          · intro prev hprev entry hentry
            rcases List.mem_cons.mp hentry with rfl | hentry
            · exact hgreater prev hprev
            · exact List.lt_trans (hgreater prev hprev) (hkeys entry hentry)
          · dsimp only [entriesDepth] at hinner houter ⊢
            omega

/-! ### The decoder and the encoder -/

/-- Within the limits of the decoder. -/
structure Value.Fits (opts : DecodeOptions) (value : Value) : Prop where
  wellFormed : value.WellFormed
  depth : value.depth ≤ opts.maxDepth
  nodes : value.nodes ≤ opts.maxNodes

theorem parseValue_new_eq_ok {input : Bytes} (hinput : input.length < 2 ^ 63) {value : Value}
    {cur : Cursor} :
    parseValue opts (fuelFor input.length) 0 (.new input) = .ok (value, cur) ↔
      value.Fits opts ∧ encode value ++ cur.rest = input
        ∧ cur.pos = (encode value).length ∧ cur.nodes = value.nodes := by
  constructor
  · intro h
    have hwritten := (written_of_parse opts _).1 h
    have hrest := hwritten.behind.rest
    have hpos := hwritten.behind.pos
    have hcharged := hwritten.behind.nodes
    have hdepth := hwritten.depth
    have hnodes := hwritten.nodes
    simp only [Cursor.new, Nat.zero_add] at hrest hpos hcharged hdepth
    exact ⟨⟨hwritten.wellFormed, hdepth, hcharged ▸ hnodes⟩, hrest.symm, hpos, hcharged⟩
  · rintro ⟨hfits, rfl, hpos, hnodes⟩
    rw [List.length_append] at hinput
    set fuel := fuelFor (encode value ++ cur.rest).length with hfuel
    have henough : 2 * (encode value).length + 1 ≤ fuel := by
      rw [hfuel, fuelFor, List.length_append]
      omega
    have h : parseValue opts fuel 0 ⟨encode value ++ cur.rest, 0, 0⟩ = _ :=
      parses_value value fuel 0 cur.rest 0 0 hfits.wellFormed henough
        (by have := hfits.depth; omega) (by have := hfits.nodes; omega) (by omega)
    rw [Cursor.new, h, Nat.zero_add, Nat.zero_add, ← hpos, ← hnodes]

/-- **The decoder accepts the encodings**: `decode_with` returns a value exactly if the input is its
encoding and the value is within the limits. -/
theorem decodeWith_eq_ok_iff (opts : DecodeOptions) {input : Bytes} (hinput : input.length < 2 ^ 63)
    (value : Value) :
    decodeWith opts input = .ok value ↔ value.Fits opts ∧ encode value = input := by
  unfold decodeWith
  constructor
  · intro h
    obtain ⟨⟨read, cur⟩, hread, h⟩ := bind_eq_ok.mp h
    dsimp only at h
    split_ifs at h with hrest
    obtain rfl := Except.ok.inj h
    rw [not_not] at hrest
    obtain ⟨hfits, hinput, -⟩ := (parseValue_new_eq_ok hinput).mp hread
    exact ⟨hfits, by rw [← hinput, hrest, List.append_nil]⟩
  · rintro ⟨hfits, rfl⟩
    have hread : parseValue opts (fuelFor (encode value).length) 0 (.new (encode value)) =
        .ok (value, ⟨[], (encode value).length, value.nodes⟩) :=
      (parseValue_new_eq_ok hinput).mpr ⟨hfits, List.append_nil _, rfl, rfl⟩
    rw [hread]
    rfl

/-- The dictionary `d1:ai7ee`, and the same with a leading zero. -/
theorem decodeWith_example :
    (decodeWith default [100, 49, 58, 97, 105, 55, 101, 101] = .ok (.dict [([97], .int 7)]) ↔
        (Value.dict [([97], .int 7)]).Fits default ∧
          encode (.dict [([97], .int 7)]) = [100, 49, 58, 97, 105, 55, 101, 101])
      ∧ ∀ value, decodeWith default [105, 48, 55, 101] = .ok value ↔
        value.Fits default ∧ encode value = [105, 48, 55, 101] :=
  ⟨decodeWith_eq_ok_iff default (by decide) _, decodeWith_eq_ok_iff default (by decide)⟩

/-- `decode_prefix_with` splits what stands before the rest in the only way there is. -/
theorem decodePrefixWith_eq_ok_iff (opts : DecodeOptions) {input : Bytes}
    (hinput : input.length < 2 ^ 63) (value : Value) (rest : Bytes) :
    decodePrefixWith opts input = .ok (value, rest) ↔ value.Fits opts
      ∧ encode value ++ rest = input := by
  unfold decodePrefixWith
  constructor
  · intro h
    obtain ⟨⟨read, cur⟩, hread, h⟩ := bind_eq_ok.mp h
    obtain ⟨rfl, rfl⟩ := Prod.mk.inj (Except.ok.inj h)
    obtain ⟨hfits, hinput, -⟩ := (parseValue_new_eq_ok hinput).mp hread
    exact ⟨hfits, hinput⟩
  · rintro ⟨hfits, heq⟩
    have hread : parseValue opts (fuelFor input.length) 0 (.new input) =
        .ok (value, ⟨rest, (encode value).length, value.nodes⟩) :=
      (parseValue_new_eq_ok hinput).mpr ⟨hfits, heq, rfl, rfl⟩
    rw [hread]
    rfl

end

end Sporos.Vendor.Bencode
