import Mathlib.Data.Nat.Digits.Lemmas
import Mathlib.Tactic

/-! # Numbers in JSON

Integers and arrays of them, written without spaces and read as `serde_json` reads them: spaces may
stand between the tokens, a number has no leading zero, and a fraction or an exponent makes it a
float, which is no integer. A reader and a writer agree (`Agree`) if what is written before the end
of an element is read back; arrays of what agrees agree (`agree_list`), and tuples are read back
(`fromSlice_pair`). -/

namespace Sporos.Lib.JsonNumbers

/-- A JSON text. -/
abbrev Bytes := List UInt8

/-- A value, and what comes after it. -/
abbrev Reader (α : Type) := Bytes → Option (α × Bytes)

/-- White space between the tokens. -/
def isSpace (b : UInt8) : Bool := b = 32 || b = 10 || b = 9 || b = 13

/-- A decimal digit. -/
def isDigit (b : UInt8) : Bool := 48 ≤ b && b ≤ 57

/-- The text without the white space in front. -/
def skipSpace (input : Bytes) : Bytes := input.dropWhile isSpace

/-! ### Numbers -/

/-- The decimal digits of a natural number. -/
def writeNat (n : ℕ) : Bytes := if n = 0 then [48]
    else ((Nat.digits 10 n).map fun d => UInt8.ofNat (48 + d)).reverse

/-- The digits of an integer, after its sign. -/
def writeInt : ℤ → Bytes
  | .ofNat n => writeNat n
  | .negSucc n => 45 :: writeNat (n + 1)

/-- The number that decimal digits stand for. -/
def digitsValue (digits : Bytes) : ℕ := digits.foldl (fun value b => value * 10 + (b.toNat - 48)) 0

/-- `parse_integer`: the digits of a `u64`; a longer number, and one with a fraction or an exponent,
is a float. -/
def readNat : Reader ℕ := fun input =>
  let digits := input.takeWhile isDigit
  let rest := input.dropWhile isDigit
  if digits = [] ∨ (digits.head? = some 48 ∧ digits.length ≠ 1) then none
  else if rest.head? = some 46 ∨ rest.head? = some 101 ∨ rest.head? = some 69 then none
  else if 2 ^ 64 ≤ digitsValue digits then none
  else some (digitsValue digits, rest)

/-- `deserialize_number`: a negative number is one of an `i64`, and minus zero is a float. -/
def readNumber : Reader ℤ := fun input =>
  match skipSpace input with
  | 45 :: rest => do
    let (n, rest) ← readNat rest
    if n = 0 ∨ 2 ^ 63 < n then none else some (-(n : ℤ), rest)
  | input => (readNat input).map fun (n, rest) => ((n : ℤ), rest)

/-- A number in a range. -/
def readRange (least greatest : ℤ) : Reader ℤ := fun input => do
  let (n, rest) ← readNumber input
  if least ≤ n ∧ n ≤ greatest then some (n, rest) else none

/-- An integer of 64 bits. -/
def readI64 : Reader ℤ := readRange (-2 ^ 63) (2 ^ 63 - 1)

/-- A byte, written as a number. -/
def readU8 : Reader UInt8 := fun input => (readRange 0 255 input).map fun (n, rest) =>
    (UInt8.ofNat n.toNat, rest)

/-! ### Arrays -/

/-- An array of elements that are already written. -/
def writeArray (items : List Bytes) : Bytes := 91 :: [44].intercalate items ++ [93]

/-- The start of an array. -/
def openArray (input : Bytes) : Option Bytes :=
  match skipSpace input with
  | 91 :: rest => some rest
  | _ => none

/-- `end_seq`. -/
def closeArray (input : Bytes) : Option Bytes :=
  match skipSpace input with
  | 93 :: rest => some rest
  | _ => none

/-- `has_next_element`: whether there is an element, and where it starts. -/
def hasNext (first : Bool) (input : Bytes) : Option (Bool × Bytes) :=
  match skipSpace input with
  | [] => none
  | 93 :: rest => some (false, 93 :: rest)
  | b :: rest =>
    if first then some (true, b :: rest)
    else if b = 44 then
      match skipSpace rest with
      | [] => none
      | 93 :: _ => none
      | rest => some (true, rest)
    else none

section

variable {α β : Type} (read : Reader α) (readSecond : Reader β)

/-- The elements up to the end of an array, with a bound on their number. -/
def readItems : ℕ → Bool → Reader (List α)
  | 0, _, _ => none
  | n + 1, first, input => do
    let (more, input) ← hasNext first input
    if more then
      let (item, input) ← read input
      let (items, input) ← readItems n false input
      some (item :: items, input)
    else some ([], input)

/-- `Vec::deserialize`. -/
def readList : Reader (List α) := fun input => do
  let input ← openArray input
  let (items, input) ← readItems read (input.length + 1) true input
  let input ← closeArray input
  some (items, input)

/-- The next element, which must be there. -/
def readNext (first : Bool) : Reader α := fun input => do
  let (more, input) ← hasNext first input
  if more then read input else none

/-- The tuple of two elements. -/
def readPair : Reader (α × β) := fun input => do
  let input ← openArray input
  let (a, input) ← readNext read true input
  let (b, input) ← readNext readSecond false input
  let input ← closeArray input
  some ((a, b), input)

/-- `from_slice`: nothing but spaces comes after the value. -/
def fromSlice (input : Bytes) : Option α := do
  let (a, rest) ← read input
  if skipSpace rest = [] then some a else none

end

/-! ### What is written is read back -/

/-- What comes after an element of an array. -/
def Ends (rest : Bytes) : Prop := rest.head? = some 44 ∨ rest.head? = some 93

/-- What an element starts with. -/
def Starts (written : Bytes) : Prop := ∃ b rest, written = b :: rest ∧ isSpace b = false ∧ b ≠ 93

/-- What is written of a value is read back. -/
structure Agree {α : Type} (read : Reader α) (write : α → Bytes) (a : α) : Prop where
  starts : Starts (write a)
  reads : ∀ rest, Ends rest → read (write a ++ rest) = some (a, rest)

theorem Starts.skipSpace {written : Bytes} (h : Starts written) (rest : Bytes) :
    skipSpace (written ++ rest) = written ++ rest := by
  obtain ⟨b, written, rfl, hspace, -⟩ := h
  rw [JsonNumbers.skipSpace, List.cons_append, List.dropWhile_cons_of_neg (by simp [hspace])]

theorem Ends.skipSpace {rest : Bytes} (h : Ends rest) : JsonNumbers.skipSpace rest = rest := by
  rcases h with h | h
  · obtain ⟨rest, rfl⟩ := List.head?_eq_some_iff.mp h
    rfl
  · obtain ⟨rest, rfl⟩ := List.head?_eq_some_iff.mp h
    rfl

theorem writeNat_spec (n : ℕ) : (∀ b ∈ writeNat n, isDigit b = true) ∧ writeNat n ≠ []
    ∧ ¬ ((writeNat n).head? = some 48 ∧ (writeNat n).length ≠ 1)
    ∧ digitsValue (writeNat n) = n := by
  have hdigit : ∀ d < 10, isDigit (UInt8.ofNat (48 + d)) = true
    ∧ (UInt8.ofNat (48 + d)).toNat - 48 = d
      ∧ (UInt8.ofNat (48 + d) = 48 → d = 0) := by decide
  by_cases hn : n = 0
  · subst hn
    simp [writeNat, isDigit, digitsValue]
  have hlt : ∀ d ∈ Nat.digits 10 n, d < 10 := fun d hd => Nat.digits_lt_base (by decide) hd
  have hne : Nat.digits 10 n ≠ [] := Nat.digits_ne_nil_iff_ne_zero.mpr hn
  rw [writeNat, if_neg hn]
  refine ⟨fun b hb => ?_, ?_, ?_, ?_⟩
  · obtain ⟨d, hd, rfl⟩ := List.mem_map.mp (List.mem_reverse.mp hb)
    exact (hdigit d (hlt d hd)).1
  · simpa using hne
  · -- the first digit is the last one of `Nat.digits`, which is not zero
    rintro ⟨hhead, -⟩
    rw [List.head?_reverse, List.getLast?_map, List.getLast?_eq_some_getLast hne, Option.map_some,
      Option.some.injEq] at hhead
    exact Nat.getLast_digit_ne_zero 10 hn ((hdigit _ (hlt _ (List.getLast_mem hne))).2.2 hhead)
  · have hvalue : ∀ digits : List ℕ, (∀ d ∈ digits, d < 10) →
        digitsValue (digits.map fun d => UInt8.ofNat (48 + d)).reverse =
          Nat.ofDigits 10 digits := by
      intro digits hdigits
      rw [digitsValue, List.foldl_reverse, Nat.ofDigits_eq_foldr, List.foldr_map]
      induction digits with
      | nil => rfl
      | cons d digits ih =>
        rw [List.foldr_cons, List.foldr_cons, ih fun d' hd' =>
          hdigits d' (List.mem_cons_of_mem d hd'),
          (hdigit d (hdigits d List.mem_cons_self)).2.1, Nat.cast_id]
        ring
    rw [hvalue _ hlt, Nat.ofDigits_digits]

/-- The digits of a number are its only ones without a zero in front. -/
theorem writeNat_digitsValue {digits : Bytes} (hdigits : ∀ b ∈ digits, isDigit b = true)
    (hne : digits ≠ []) (hzero : ¬ (digits.head? = some 48 ∧ digits.length ≠ 1)) :
      writeNat (digitsValue digits) = digits := by
  have hback : ∀ b : UInt8, isDigit b = true → b.toNat - 48 < 10
    ∧ UInt8.ofNat (48 + (b.toNat - 48)) = b
      ∧ (b.toNat - 48 = 0 → b = 48) := by
    intro b hb
    simp only [isDigit, Bool.and_eq_true, decide_eq_true_eq, UInt8.le_iff_toNat_le,
      UInt8.reduceToNat] at hb
    refine ⟨by omega, ?_, fun h => UInt8.toNat_inj.mp (show b.toNat = 48 by omega)⟩
    rw [show 48 + (b.toNat - 48) = b.toNat by omega, UInt8.ofNat_toNat]
  set places := digits.reverse.map fun b => b.toNat - 48 with hplaces
  have hplace : ∀ d ∈ places, d < 10 := by
    intro d hd
    obtain ⟨b, hb, rfl⟩ := List.mem_map.mp hd
    exact (hback b (hdigits b (List.mem_reverse.mp hb))).1
  have hvalue : digitsValue digits = Nat.ofDigits 10 places := by
    rw [digitsValue, ← List.foldr_reverse, Nat.ofDigits_eq_foldr, hplaces, List.foldr_map]
    congr 1
    funext b value
    rw [Nat.cast_id]
    ring
  have hmap : (places.map fun d => UInt8.ofNat (48 + d)).reverse = digits := by
    rw [hplaces, List.map_map, ← List.map_reverse, List.reverse_reverse]
    exact List.map_congr_left (fun b hb => (hback b (hdigits b hb)).2.1) |>.trans (List.map_id _)
  by_cases hone : digits = [48]
  · subst hone
    rfl
  have hlast : ∀ h : places ≠ [], places.getLast h ≠ 0 := by
    intro h hlast
    obtain ⟨b, rest, rfl⟩ := List.exists_cons_of_ne_nil hne
    have hb : b.toNat - 48 = 0 := by simpa [hplaces] using hlast
    obtain rfl := (hback b (hdigits b List.mem_cons_self)).2.2 hb
    refine hzero ⟨rfl, fun hlength => hone ?_⟩
    simpa using hlength
  have hdigits10 : Nat.digits 10 (digitsValue digits) = places := by
    rw [hvalue, Nat.digits_ofDigits 10 (by decide) places hplace hlast]
  have hnonzero : digitsValue digits ≠ 0 := by
    intro h
    rw [h, Nat.digits_zero] at hdigits10
    exact hne (by rw [← hmap, ← hdigits10]; rfl)
  rw [writeNat, if_neg hnonzero, hdigits10, hmap]

theorem readNat_writeNat {n : ℕ} (hn : n < 2 ^ 64) {rest : Bytes} (h : Ends rest) :
    readNat (writeNat n ++ rest) = some (n, rest) := by
  obtain ⟨hdigits, hne, hzero, hvalue⟩ := writeNat_spec n
  have hrest : rest.takeWhile isDigit = [] ∧ rest.dropWhile isDigit = rest
      ∧ ¬ (rest.head? = some 46 ∨ rest.head? = some 101 ∨ rest.head? = some 69) := by
    rcases h with h | h
    · obtain ⟨rest, rfl⟩ := List.head?_eq_some_iff.mp h
      exact ⟨rfl, rfl, by simp⟩
    · obtain ⟨rest, rfl⟩ := List.head?_eq_some_iff.mp h
      exact ⟨rfl, rfl, by simp⟩
  unfold readNat
  simp only [List.takeWhile_append_of_pos hdigits, List.dropWhile_append_of_pos hdigits,
    hrest.1, hrest.2.1, List.append_nil, hvalue]
  rw [if_neg (not_or.mpr ⟨hne, hzero⟩), if_neg hrest.2.2, if_neg (not_le.mpr hn)]

theorem starts_writeNat (n : ℕ) : Starts (writeNat n) ∧ (writeNat n).head? ≠ some 45 := by
  obtain ⟨hdigits, hne, -⟩ := writeNat_spec n
  obtain ⟨b, rest, heq⟩ := List.exists_cons_of_ne_nil hne
  have hb : isDigit b = true := hdigits b (by rw [heq]; exact List.mem_cons_self)
  have hall : ∀ b : UInt8, isDigit b = true → isSpace b = false ∧ b ≠ 93 ∧ b ≠ 45 := by
    intro b hb
    simp only [isDigit, isSpace, Bool.and_eq_true, decide_eq_true_eq, Bool.or_eq_false_iff,
      decide_eq_false_iff_not] at hb ⊢
    refine ⟨⟨⟨⟨?_, ?_⟩, ?_⟩, ?_⟩, ?_, ?_⟩ <;> rintro rfl <;> exact absurd hb (by decide)
  rw [heq]
  exact ⟨⟨b, rest, rfl, (hall b hb).1, (hall b hb).2.1⟩, by simpa using (hall b hb).2.2⟩

theorem agree_number {n : ℤ} (hn : -2 ^ 63 ≤ n ∧ n < 2 ^ 64) : Agree readNumber writeInt n := by
  cases n with
  | ofNat n =>
    obtain ⟨hstarts, hminus⟩ := starts_writeNat n
    refine ⟨hstarts, fun rest hrest => ?_⟩
    have hskip := hstarts.skipSpace rest
    obtain ⟨b, written, heq, -⟩ := hstarts
    have hb : b ≠ 45 := by
      rintro rfl
      exact hminus (by rw [heq]; rfl)
    have hlt : n < 2 ^ 64 := by
      rw [Int.ofNat_eq_natCast] at hn
      omega
    have hread := readNat_writeNat hlt hrest
    rw [readNumber]
    simp only [writeInt, hskip]
    rw [heq, List.cons_append] at hread ⊢
    split
    · next heq' => exact absurd (List.cons.inj heq').1 hb
    · rw [hread]
      rfl
  | negSucc n =>
    refine ⟨⟨45, writeNat (n + 1), rfl, by decide, by decide⟩, fun rest hrest => ?_⟩
    have hread := readNat_writeNat (n := n + 1) (by omega) hrest
    have hskip : skipSpace (45 :: writeNat (n + 1) ++ rest) =
      45 :: (writeNat (n + 1) ++ rest) := rfl
    rw [readNumber]
    simp only [writeInt, hskip, hread, Option.bind_eq_bind, Option.bind_some]
    rw [if_neg (by omega)]
    rfl

theorem Agree.range {least greatest n : ℤ} (h : Agree readNumber writeInt n)
    (hn : least ≤ n ∧ n ≤ greatest) : Agree (readRange least greatest) writeInt n := by
  refine ⟨h.starts, fun rest hrest => ?_⟩
  simp only [readRange, h.reads rest hrest, Option.bind_eq_bind, Option.bind_some, hn,
    and_self, if_true]

theorem agree_i64 {n : ℤ} (hn : -2 ^ 63 ≤ n ∧ n ≤ 2 ^ 63 - 1) : Agree readI64 writeInt n :=
  (agree_number ⟨hn.1, by omega⟩).range hn

theorem agree_u8 (b : UInt8) : Agree readU8 (fun b => writeNat b.toNat) b := by
  have hb := b.toNat_lt
  have hagree : Agree (readRange 0 255) writeInt b.toNat :=
    (agree_number ⟨by omega, by omega⟩).range ⟨by omega, by omega⟩
  refine ⟨hagree.starts, fun rest hrest => ?_⟩
  have hwrite : writeNat b.toNat = writeInt b.toNat := rfl
  have hbyte : UInt8.ofNat (b.toNat : ℤ).toNat = b := by rw [Int.toNat_natCast, UInt8.ofNat_toNat]
  simp only [readU8, hwrite, hagree.reads rest hrest, Option.map_some, hbyte]

/-! ### Arrays that are written are read back -/

section

variable {α β : Type} {read : Reader α} {write : α → Bytes} {readSecond : Reader β}
  {writeSecond : β → Bytes}

theorem Starts.hasNext_first {written : Bytes} (h : Starts written) (rest : Bytes) :
    hasNext true (written ++ rest) = some (true, written ++ rest) := by
  have hskip := h.skipSpace rest
  obtain ⟨b, written, rfl, -, hb⟩ := h
  rw [hasNext, hskip, List.cons_append]
  split
  · next heq => cases heq
  · next heq => exact absurd (List.cons.inj heq).1 hb
  · next heq =>
    obtain ⟨rfl, rfl⟩ := List.cons.inj heq
    rfl

theorem Starts.hasNext_later {written : Bytes} (h : Starts written) (rest : Bytes) :
    hasNext false (44 :: (written ++ rest)) = some (true, written ++ rest) := by
  have hcomma : hasNext false (44 :: (written ++ rest)) =
      match JsonNumbers.skipSpace (written ++ rest) with
      | [] => none
      | 93 :: _ => none
      | rest => some (true, rest) := rfl
  have hskip := h.skipSpace rest
  obtain ⟨b, written, rfl, -, hb⟩ := h
  rw [hcomma, hskip, List.cons_append]
  split
  · next heq => cases heq
  · next heq => exact absurd (List.cons.inj heq).1 hb
  · rfl

/-- What comes after the first element: the other elements, each after a comma, and the end of the
array. -/
def tailText (write : α → Bytes) (items : List α) (rest : Bytes) : Bytes :=
  items.foldr (fun a text => 44 :: (write a ++ text)) (93 :: rest)

theorem ends_tailText (write : α → Bytes) (items : List α) (rest : Bytes) :
    Ends (tailText write items rest) := by
  cases items with
  | nil => exact .inr rfl
  | cons a items => exact .inl rfl

theorem intercalate_eq (write : α → Bytes) (a : α) (rest : Bytes) : ∀ items : List α,
    [44].intercalate ((a :: items).map write) ++ 93 :: rest = write a ++ tailText write items rest
  | [] => by simp [tailText]
  | b :: items => by
    have ih := intercalate_eq write b rest items
    simp only [List.map_cons] at ih ⊢
    rw [List.intercalate_cons_cons, List.append_assoc, List.append_assoc, ih]
    rfl

theorem readItems_tailText : ∀ {items : List α}, (∀ a ∈ items, Agree read write a) → ∀ {n : ℕ},
    items.length < n →
    ∀ rest : Bytes, readItems read n false (tailText write items rest) = some (items, 93 :: rest)
  | [], _, n + 1, _, rest => rfl
  | a :: items, hagree, n + 1, hn, rest => by
    have ha := hagree a List.mem_cons_self
    have ih := readItems_tailText (fun b hb => hagree b (List.mem_cons_of_mem a hb))
      (Nat.lt_of_succ_lt_succ hn) rest
    have htext : tailText write (a :: items) rest =
      44 :: (write a ++ tailText write items rest) := rfl
    rw [readItems, htext, ha.starts.hasNext_later]
    simp only [Option.bind_eq_bind, Option.bind_some, if_true,
      ha.reads _ (ends_tailText write items rest), ih]

theorem length_le_tailText (write : α → Bytes) (items : List α) (rest : Bytes) :
    items.length ≤ (tailText write items rest).length := by
  induction items with
  | nil => exact Nat.zero_le _
  | cons a items ih =>
    have htext : tailText write (a :: items) rest =
      44 :: (write a ++ tailText write items rest) := rfl
    rw [htext, List.length_cons, List.length_cons, List.length_append]
    omega

theorem starts_writeArray (items : List Bytes) : Starts (writeArray items) :=
  ⟨91, _, rfl, by decide, by decide⟩

/-- **An array** that is written is read back, where its elements are. -/
theorem agree_list {items : List α} (h : ∀ a ∈ items, Agree read write a) :
    Agree (readList read) (fun items => writeArray (items.map write)) items := by
  refine ⟨starts_writeArray _, fun rest _ => ?_⟩
  cases items with
  | nil => rfl
  | cons a items =>
    have ha := h a List.mem_cons_self
    have hopen : writeArray ((a :: items).map write) ++ rest =
        91 :: (write a ++ tailText write items rest) := by
      rw [writeArray, List.append_assoc, List.cons_append, List.singleton_append, intercalate_eq]
    have hitems := readItems_tailText (fun b hb => h b (List.mem_cons_of_mem a hb))
      (n := (write a ++ tailText write items rest).length)
      (by
        have hlength := length_le_tailText write items rest
        obtain ⟨b, written, hwritten, -⟩ := ha.starts
        rw [hwritten, List.cons_append, List.length_cons, List.length_append]
        omega) rest
    have hopened : openArray (91 :: (write a ++ tailText write items rest))
        = some (write a ++ tailText write items rest) := rfl
    have hclose : closeArray (93 :: rest) = some rest := rfl
    simp only [readList, hopen, hopened, Option.bind_eq_bind, Option.bind_some, readItems,
      ha.starts.hasNext_first, if_true, ha.reads _ (ends_tailText write items rest), hitems, hclose]

/-- **A tuple** that is written is the one that the text gives. -/
theorem fromSlice_pair {a : α} {b : β} (ha : Agree read write a)
    (hb : Agree readSecond writeSecond b) :
    fromSlice (readPair read readSecond) (writeArray [write a, writeSecond b]) = some (a, b) := by
  have hopen : openArray (writeArray [write a, writeSecond b])
      = some (write a ++ 44 :: (writeSecond b ++ [93])) := by
    simp [writeArray, openArray, skipSpace, isSpace]
  have hclose : closeArray [93] = some [] := rfl
  simp only [fromSlice, readPair, hopen, Option.bind_eq_bind, Option.bind_some, readNext,
    ha.starts.hasNext_first, if_true, ha.reads (44 :: (writeSecond b ++ [93])) (.inl rfl),
    hb.starts.hasNext_later, hb.reads [93] (.inr rfl),
    hclose]
  rfl

end

end Sporos.Lib.JsonNumbers
