import Mathlib
import Sporos.Vendor.BencodeRoundTrip

/-! # The walkers go where the decoder goes

A walker builds nothing and charges no nodes. It stops where the decoder stops that may charge as
many nodes as there are bytes, and with the same error (`skipValueWith_eq`); the span it finds of a
key of a dictionary is the encoding of the value of that key (`dictValueSpan_spec`). The fuel of the
decoder is enough (`parse_fuel`), so none of these errors is one of the model. -/

namespace Sporos.Vendor.Bencode

open Sporos.Lib.Loop
open Sporos.Lib.JsonNumbers

/-! ### Nodes and bytes -/

mutual

theorem nodes_le_length : ∀ value : Value, value.nodes ≤ (encode value).length
  | .int i => by
    rw [Value.nodes]
    exact length_encode_pos _
  | .bytes b => by
    rw [Value.nodes]
    exact length_encode_pos _
  | .list items => by
    have := itemsNodes_le_length items
    rw [Value.nodes, length_encode_list]
    omega
  | .dict entries => by
    have := entriesNodes_le_length entries
    rw [Value.nodes, length_encode_dict]
    omega

theorem itemsNodes_le_length : ∀ items : List Value,
    itemsNodes items ≤ (items.flatMap encode).length
  | [] => Nat.zero_le _
  | item :: items => by
    have hitem := nodes_le_length item
    have hitems := itemsNodes_le_length items
    rw [itemsNodes, List.flatMap_cons, List.length_append]
    omega

theorem entriesNodes_le_length : ∀ entries : List (Bytes × Value),
    entriesNodes entries ≤ (entries.flatMap encodeEntry).length
  | [] => Nat.zero_le _
  | (key, value) :: entries => by
    have hvalue := nodes_le_length value
    have hentries := entriesNodes_le_length entries
    rw [entriesNodes, List.flatMap_cons, List.length_append, encodeEntry, List.length_append]
    dsimp only
    omega

end

section

variable {opts : DecodeOptions} {cur cur' : Cursor}

theorem Behind.length {written : Bytes} {charged : ℕ} (h : Behind cur written charged cur') :
    cur.rest.length = written.length + cur'.rest.length := by
  rw [h.rest, List.length_append]

theorem length_lt_of_parseValue {fuel depth : ℕ} {value : Value}
    (h : parseValue opts fuel depth cur = .ok (value, cur')) :
      cur'.rest.length < cur.rest.length := by
  have hlength := ((written_of_parse opts fuel).1 h).behind.length
  have hpositive := length_encode_pos value
  omega

theorem length_lt_of_parseKey {last : Option Bytes} {key : Bytes}
    (h : parseKey last cur = .ok (key, cur')) : cur'.rest.length < cur.rest.length := by
  have hlength := (behind_of_parseKey h).1.length
  have hpositive := length_encode_pos (.bytes key)
  rw [encode_bytes] at hpositive
  omega

theorem length_advance_one {byte : UInt8} (h : cur.peek = some byte) :
    cur.rest.length = 1 + (cur.advance 1).rest.length :=
  (behind_advance_one h).length

/-! ### The fuel is enough -/

variable (opts) in
/-- **More fuel changes nothing**: by induction on the fuel. -/
theorem parse_fuel : ∀ fuel : ℕ,
    (∀ depth cur, 2 * cur.rest.length + 1 ≤ fuel →
      parseValue opts (fuel + 1) depth cur = parseValue opts fuel depth cur)
    ∧ (∀ depth cur, 2 * cur.rest.length + 2 ≤ fuel →
      parseList opts (fuel + 1) depth cur = parseList opts fuel depth cur)
    ∧ ∀ depth last cur, 2 * cur.rest.length + 2 ≤ fuel →
      parseDict opts (fuel + 1) depth last cur = parseDict opts fuel depth last cur
  | 0 => ⟨fun _ _ h => by omega, fun _ _ h => by omega, fun _ _ _ h => by omega⟩
  | fuel + 1 => by
    obtain ⟨ihValue, ihList, ihDict⟩ := parse_fuel fuel
    refine ⟨fun depth cur h => ?_, fun depth cur h => ?_, fun depth last cur h => ?_⟩
    · cases hpeek : cur.peek with
      | none => simp only [parseValue, hpeek]
      | some byte =>
        have hlength := length_advance_one hpeek
        simp only [parseValue, hpeek]
        refine congrArg (ite _ _) (bind_congr_of_ok fun charged hcharged => ?_)
        unfold Cursor.chargeNode at hcharged
        split_ifs at hcharged
        obtain rfl := Except.ok.inj hcharged
        have hrest : 2 * (Cursor.advance { cur with
            nodes := cur.nodes + 1 } 1).rest.length + 2 ≤ fuel := by
          change 2 * (cur.advance 1).rest.length + 2 ≤ fuel
          omega
        rw [ihList _ _ hrest, ihDict _ _ _ hrest]
    · cases hpeek : cur.peek with
      | none => simp only [parseList, hpeek]
      | some byte =>
        rw [parseList, parseList, hpeek]
        refine congrArg (ite _ _) ?_
        rw [ihValue _ _ (by omega)]
        refine bind_congr_of_ok ?_
        rintro ⟨item, mid⟩ hread
        have hlt := length_lt_of_parseValue hread
        dsimp only
        rw [ihList _ _ (by omega)]
    · cases hpeek : cur.peek with
      | none => simp only [parseDict, hpeek]
      | some byte =>
        rw [parseDict, parseDict, hpeek]
        refine congrArg (ite _ _) (bind_congr_of_ok ?_)
        rintro ⟨key, atValue⟩ hkey
        have hlt := length_lt_of_parseKey hkey
        dsimp only
        rw [ihValue _ _ (by omega)]
        refine bind_congr_of_ok ?_
        rintro ⟨value, mid⟩ hread
        have hlt' := length_lt_of_parseValue hread
        dsimp only
        rw [ihDict _ _ _ (by omega)]

end

/-! ### The walker -/

/-- The cursor with other nodes charged. -/
def Cursor.withNodes (cur : Cursor) (nodes : ℕ) : Cursor := { cur with nodes }

theorem expect_withNodes (cur : Cursor) (nodes : ℕ) (byte : UInt8) (kind : DecodeErrorKind) :
    (cur.withNodes nodes).expect byte kind = (cur.expect byte kind).map (·.withNodes nodes) := by
  unfold Cursor.expect
  rw [show (cur.withNodes nodes).peek = cur.peek from rfl]
  cases cur.peek with
  | none => rfl
  | some found =>
    dsimp only
    split_ifs <;> rfl

theorem take_withNodes (cur : Cursor) (nodes n : ℕ) :
    (cur.withNodes nodes).take n = (cur.take n).map (Prod.map id (·.withNodes nodes)) := by
  unfold Cursor.take
  rw [show (cur.withNodes nodes).pos = cur.pos from rfl, show (cur.withNodes nodes).rest =
    cur.rest from rfl]
  split_ifs <;> rfl

theorem parseBytes_withNodes (cur : Cursor) (nodes : ℕ) :
    parseBytes (cur.withNodes nodes) = (parseBytes cur).map (Prod.map id (·.withNodes nodes)) := by
  unfold parseBytes
  dsimp only
  rw [show (cur.withNodes nodes).digits = cur.digits from rfl,
    show ∀ n, (cur.withNodes nodes).advance n = (cur.advance n).withNodes nodes from fun _ => rfl,
      expect_withNodes]
  by_cases hdigits : cur.digits = [] ∨ LeadingZero cur.digits
  · rw [if_pos hdigits, if_pos hdigits]
    rfl
  rw [if_neg hdigits, if_neg hdigits]
  cases (cur.advance cur.digits.length).expect 58 .invalidLength with
  | error e => rfl
  | ok behind =>
    by_cases hoverflow : 2 ^ 64 ≤ digitsValue cur.digits
    · simp only [if_pos hoverflow]
      rfl
    · simp only [if_neg hoverflow]
      exact take_withNodes behind nodes _

theorem parseDigits_withNodes (start : Cursor) (negative : Bool) (cur : Cursor) (nodes : ℕ) :
    parseDigits (start.withNodes nodes) negative (cur.withNodes nodes) =
      (parseDigits start negative cur).map (Prod.map id (·.withNodes nodes)) := by
  unfold parseDigits
  dsimp only
  rw [show (cur.withNodes nodes).digits = cur.digits from rfl,
    show ∀ n, (cur.withNodes nodes).advance n = (cur.advance n).withNodes nodes from fun _ => rfl,
      expect_withNodes]
  by_cases hdigits : cur.digits = [] ∨ LeadingZero cur.digits
    ∨ (negative = true ∧ cur.digits = [48])
  · rw [if_pos hdigits, if_pos hdigits]
    rfl
  rw [if_neg hdigits, if_neg hdigits]
  cases (cur.advance cur.digits.length).expect 101 .invalidInteger with
  | error e => rfl
  | ok behind =>
    simp only [Except.map, bind, Except.bind]
    split_ifs <;> rfl

theorem parseInt_withNodes (cur : Cursor) (nodes : ℕ) :
    parseInt (cur.withNodes nodes) = (parseInt cur).map (Prod.map id (·.withNodes nodes)) := by
  unfold parseInt
  dsimp only
  rw [show ((cur.withNodes nodes).advance 1).peek = (cur.advance 1).peek from rfl]
  by_cases hminus : (cur.advance 1).peek = some 45
  · rw [if_pos hminus, if_pos hminus]
    exact parseDigits_withNodes cur true ((cur.advance 1).advance 1) nodes
  · rw [if_neg hminus, if_neg hminus]
    exact parseDigits_withNodes cur false (cur.advance 1) nodes

theorem parseKey_withNodes (last : Option Bytes) (cur : Cursor) (nodes : ℕ) :
    parseKey last (cur.withNodes nodes) =
      (parseKey last cur).map (Prod.map id (·.withNodes nodes)) := by
  unfold parseKey
  rw [parseBytes_withNodes]
  cases parseBytes cur with
  | error e => rfl
  | ok read =>
    cases last with
    | none => rfl
    | some prev =>
      simp only [Except.map, bind, Except.bind, Prod.map, id]
      split_ifs <;> rfl

section

variable {opts limits : DecodeOptions}

/-- **The walker goes where the decoder goes** that cannot run out of nodes: with the same fuel, and
with the same error if there is one. -/
theorem skip_eq (hdepth : limits.maxDepth = opts.maxDepth) : ∀ fuel : ℕ,
    (∀ depth (cur : Cursor) nodes, cur.nodes + cur.rest.length ≤ limits.maxNodes →
      skipOne opts fuel depth (cur.withNodes nodes) =
        (parseValue limits fuel depth cur).map (·.2.withNodes nodes))
    ∧ (∀ depth (cur : Cursor) nodes, cur.nodes + cur.rest.length ≤ limits.maxNodes →
      skipList opts fuel depth (cur.withNodes nodes) =
        (parseList limits fuel depth cur).map (·.2.withNodes nodes))
    ∧ ∀ depth last (cur : Cursor) nodes, cur.nodes + cur.rest.length ≤ limits.maxNodes →
      skipDict opts fuel depth last (cur.withNodes nodes) =
        (parseDict limits fuel depth last cur).map (·.2.withNodes nodes)
  | 0 =>
    ⟨fun _ _ _ _ => by rw [skipOne, parseValue]; rfl,
      fun _ _ _ _ => by rw [skipList, parseList]; rfl,
      fun _ _ _ _ _ => by rw [skipDict, parseDict]; rfl⟩
  | fuel + 1 => by
    obtain ⟨ihOne, ihList, ihDict⟩ := skip_eq hdepth fuel
    have hbudget : ∀ {depth : ℕ} {cur mid : Cursor} {value : Value},
        parseValue limits fuel depth cur = .ok (value, mid) →
          cur.nodes + cur.rest.length ≤ limits.maxNodes →
        mid.nodes + mid.rest.length ≤ limits.maxNodes := by
      intro depth cur mid value hread hnodes
      have hbehind := ((written_of_parse limits fuel).1 hread).behind
      have hcharged := hbehind.nodes
      have hlength := hbehind.length
      have hfew := nodes_le_length value
      omega
    refine ⟨fun depth cur nodes hnodes => ?_, fun depth cur nodes hnodes => ?_,
      fun depth last cur nodes hnodes => ?_⟩
    · by_cases hdeep : opts.maxDepth < depth
      · rw [skipOne, if_pos hdeep, parseValue, hdepth, if_pos hdeep]
        rfl
      cases hpeek : cur.peek with
      | none =>
        rw [skipOne, if_neg hdeep, parseValue, hdepth, if_neg hdeep,
          show (cur.withNodes nodes).peek = cur.peek from rfl, hpeek]
        rfl
      | some byte =>
        have hlength := length_advance_one hpeek
        have hcharged : (cur.charged.advance 1).nodes
            + (cur.charged.advance 1).rest.length ≤ limits.maxNodes := by
          change cur.nodes + 1 + (cur.advance 1).rest.length ≤ limits.maxNodes
          omega
        rw [parseValue_of_peek byte (by omega) hpeek (by omega), skipOne, if_neg hdeep,
          show (cur.withNodes nodes).peek = cur.peek from rfl, hpeek]
        dsimp only
        rw [show cur.withNodes nodes = cur.charged.withNodes nodes from rfl, parseInt_withNodes,
          parseBytes_withNodes,
          show (cur.charged.withNodes nodes).advance 1 =
            (cur.charged.advance 1).withNodes nodes from rfl,
          ihList depth _ nodes hcharged, ihDict depth none _ nodes hcharged]
        split_ifs
        · cases parseInt cur.charged <;> rfl
        · cases parseList limits fuel depth (cur.charged.advance 1) <;> rfl
        · cases parseDict limits fuel depth none (cur.charged.advance 1) <;> rfl
        · cases parseBytes cur.charged <;> rfl
        · rfl
    · rw [skipList, parseList, show (cur.withNodes nodes).peek = cur.peek from rfl]
      cases hpeek : cur.peek with
      | none => rfl
      | some byte =>
        dsimp only
        by_cases hend : byte = 101
        · rw [if_pos hend, if_pos hend]
          rfl
        rw [if_neg hend, if_neg hend, ihOne _ _ _ hnodes]
        cases hread : parseValue limits fuel (depth + 1) cur with
        | error e => rfl
        | ok read =>
          obtain ⟨item, mid⟩ := read
          change skipList opts fuel depth (mid.withNodes nodes) = _
          rw [ihList depth mid nodes (hbudget hread hnodes)]
          change _ = Except.map _ (parseList limits fuel depth mid >>= _)
          cases parseList limits fuel depth mid <;> rfl
    · rw [skipDict, parseDict, show (cur.withNodes nodes).peek = cur.peek from rfl]
      cases hpeek : cur.peek with
      | none => rfl
      | some byte =>
        dsimp only
        by_cases hend : byte = 101
        · rw [if_pos hend, if_pos hend]
          rfl
        rw [if_neg hend, if_neg hend, parseKey_withNodes]
        cases hkey : parseKey last cur with
        | error e => rfl
        | ok found =>
          obtain ⟨key, atValue⟩ := found
          have hatValue : atValue.nodes + atValue.rest.length ≤ limits.maxNodes := by
            have hlt := length_lt_of_parseKey hkey
            have hsame := (behind_of_parseKey hkey).1.nodes
            omega
          change skipOne opts fuel (depth + 1) (atValue.withNodes nodes) >>= _ =
            Except.map _ (parseValue limits fuel (depth + 1) atValue >>= _)
          rw [ihOne _ _ _ hatValue]
          cases hread : parseValue limits fuel (depth + 1) atValue with
          | error e => rfl
          | ok read =>
            obtain ⟨value, mid⟩ := read
            change skipDict opts fuel depth (some key) (mid.withNodes nodes) =
              Except.map _ (parseDict limits fuel depth (some key) mid >>= _)
            rw [ihDict depth (some key) mid nodes (hbudget hread hatValue)]
            cases parseDict limits fuel depth (some key) mid <;> rfl

end

/-- **The walker stops where the decoder stops** that may charge a node for every byte: behind the
same value, or with the same error. -/
theorem skipValueWith_eq (opts : DecodeOptions) {input : Bytes} (hinput : input.length < 2 ^ 63) :
    skipValueWith opts input =
      (decodePrefixWith { opts with maxNodes := input.length } input).map fun read =>
        (0, (encode read.1).length) := by
  set limits : DecodeOptions := { opts with maxNodes := input.length }
  have hbudget : (Cursor.new input).nodes + (Cursor.new input).rest.length ≤ limits.maxNodes := by
    simp [Cursor.new, limits]
  have hskip : skipOne opts (fuelFor input.length) 0 (.new input) =
      (parseValue limits (fuelFor input.length) 0 (.new input)).map (·.2.withNodes 0) :=
    (skip_eq (show limits.maxDepth = opts.maxDepth from rfl) (fuelFor input.length)).1 0
      (.new input) 0 hbudget
  rw [skipValueWith, decodePrefixWith, hskip]
  cases hread : parseValue limits (fuelFor input.length) 0 (.new input) with
  | error e => rfl
  | ok read =>
    obtain ⟨value, cur⟩ := read
    obtain ⟨-, -, hpos, -⟩ := (parseValue_new_eq_ok hinput).mp hread
    change Except.ok (0, cur.pos) = Except.ok (0, (encode value).length)
    rw [hpos]

/-- The list `li7ee` before two more bytes. -/
theorem skipValueWith_example :
    skipValueWith default [108, 105, 55, 101, 101, 48, 48] =
      (decodePrefixWith { (default : DecodeOptions) with maxNodes := 7 } [108, 105, 55, 101,
        101, 48, 48]).map
        fun read => (0, (encode read.1).length) :=
  skipValueWith_eq default (by decide)

/-! ### The span of a key -/

/-- The span of the value of the key, where the entries are written from the position on. -/
def spanOf (key : Bytes) : ℕ → List (Bytes × Value) → Option (ℕ × ℕ)
  | _, [] => none
  | pos, (thisKey, value) :: entries =>
    let start := pos + (writeBytes thisKey).length
    let stop := start + (encode value).length
    if thisKey = key then some (start, stop) else spanOf key stop entries

theorem slice_spanOf (key : Bytes) : ∀ (entries : List (Bytes × Value)) (before after : Bytes),
    (spanOf key before.length entries).map (fun span =>
        ((before ++ entries.flatMap encodeEntry ++ after).drop span.1).take (span.2 - span.1)) =
      (entries.lookup key).map encode
  | [], before, after => rfl
  | (thisKey, value) :: entries, before, after => by
    rw [spanOf, List.lookup_cons]
    by_cases hkey : thisKey = key
    · rw [if_pos hkey, beq_iff_eq.mpr hkey.symm, Option.map_some, List.flatMap_cons, encodeEntry]
      have hsplit : before ++ (writeBytes thisKey ++ encode value
        ++ entries.flatMap encodeEntry) ++ after =
          (before ++ writeBytes thisKey)
            ++ (encode value ++ (entries.flatMap encodeEntry ++ after)) := by
        simp only [List.append_assoc]
      rw [hsplit, ← List.length_append, List.drop_left, Nat.add_sub_cancel_left, List.take_left]
      rfl
    · rw [if_neg hkey, beq_eq_false_iff_ne.mpr (Ne.symm hkey)]
      have ih := slice_spanOf key entries (before ++ (writeBytes thisKey ++ encode value)) after
      rw [List.length_append, List.length_append, ← Nat.add_assoc] at ih
      rw [← ih, List.flatMap_cons, encodeEntry]
      simp only [List.append_assoc]

theorem spanLoop_eq {limits : DecodeOptions}
    (hdepth : limits.maxDepth = (default : DecodeOptions).maxDepth) (key : Bytes) :
      ∀ (fuel : ℕ) (last : Option Bytes) (found : Option (ℕ × ℕ)) (cur : Cursor) (nodes : ℕ),
    cur.nodes + cur.rest.length ≤ limits.maxNodes →
    spanLoop default key fuel last found (cur.withNodes nodes) =
      (parseDict limits fuel 0 last cur).map fun read => found.or (spanOf key cur.pos read.1)
  | 0, last, found, cur, nodes, _ => by
    rw [spanLoop, parseDict]
    rfl
  | fuel + 1, last, found, cur, nodes, hnodes => by
    rw [spanLoop, parseDict, show (cur.withNodes nodes).peek = cur.peek from rfl]
    cases hpeek : cur.peek with
    | none => rfl
    | some byte =>
      dsimp only
      by_cases hend : byte = 101
      · rw [if_pos hend, if_pos hend]
        simp [Except.map, spanOf]
      rw [if_neg hend, if_neg hend, parseKey_withNodes]
      cases hkey : parseKey last cur with
      | error e => rfl
      | ok read =>
        obtain ⟨thisKey, atValue⟩ := read
        have hbehind := (behind_of_parseKey hkey).1
        have hatValue : atValue.nodes + atValue.rest.length ≤ limits.maxNodes := by
          have hlt := length_lt_of_parseKey hkey
          have hsame := hbehind.nodes
          omega
        change skipOne default fuel 1 (atValue.withNodes nodes) >>= _ =
          Except.map _ (parseValue limits fuel (0 + 1) atValue >>= _)
        rw [(skip_eq hdepth fuel).1 1 atValue nodes hatValue]
        cases hread : parseValue limits fuel (0 + 1) atValue with
        | error e => rfl
        | ok read =>
          obtain ⟨value, mid⟩ := read
          have hwritten := ((written_of_parse limits fuel).1 hread).behind
          have hmid : mid.nodes + mid.rest.length ≤ limits.maxNodes := by
            have hcharged := hwritten.nodes
            have hlength := hwritten.length
            have hfew := nodes_le_length value
            omega
          change spanLoop default key fuel (some thisKey) _ (mid.withNodes nodes) =
            Except.map _ (parseDict limits fuel 0 (some thisKey) mid >>= _)
          rw [spanLoop_eq hdepth key fuel (some thisKey) _ mid nodes hmid]
          cases parseDict limits fuel 0 (some thisKey) mid with
          | error e => rfl
          | ok read =>
            rw [hwritten.pos, hbehind.pos]
            simp only [Except.map, bind, Except.bind, spanOf, Prod.map, id,
              Cursor.withNodes, hwritten.pos, hbehind.pos]
            cases found <;> by_cases hkey : thisKey = key <;> simp [hkey]

/-- A dictionary at the start of the input, and the rest. -/
structure StartsWithDict (input : Bytes) (entries : List (Bytes × Value))
    (rest : Bytes) : Prop where
  wellFormed : (Value.dict entries).WellFormed
  depth : (Value.dict entries).depth ≤ defaultMaxDepth
  written : encode (.dict entries) ++ rest = input

/-- The slice of the input. -/
def slice (input : Bytes) (span : ℕ × ℕ) : Bytes := (input.drop span.1).take (span.2 - span.1)

theorem dictValueSpan_eq_ok_iff {input : Bytes} (hinput : input.length < 2 ^ 63) (key : Bytes)
    (found : Option (ℕ × ℕ)) :
    dictValueSpan input key = .ok found ↔
      ∃ entries rest, StartsWithDict input entries rest ∧ found = spanOf key 1 entries := by
  unfold dictValueSpan
  dsimp only
  cases input with
  | nil =>
    constructor
    · intro h
      cases h
    · rintro ⟨entries, rest, ⟨-, -, hwritten⟩, -⟩
      rw [encode_dict] at hwritten
      cases hwritten
  | cons first input =>
    rw [show (Cursor.new (first :: input)).peek = some first from rfl]
    dsimp only
    by_cases hfirst : first = 100
    · subst hfirst
      set limits : DecodeOptions := ⟨defaultMaxDepth, input.length⟩
      have hdepth : limits.maxDepth = (default : DecodeOptions).maxDepth := rfl
      have hbudget : (0 : ℕ) + input.length ≤ limits.maxNodes := by
        simp [limits]
      have hloop : spanLoop default key (fuelFor (input.length + 1)) none none ⟨input, 1, 0⟩ =
          (parseDict limits (fuelFor (input.length + 1)) 0 none ⟨input, 1, 0⟩).map
            fun read => (none : Option (ℕ × ℕ)).or (spanOf key 1 read.1) :=
        spanLoop_eq hdepth key (fuelFor (input.length + 1)) none none ⟨input, 1, 0⟩ 0 hbudget
      rw [if_pos rfl, List.length_cons]
      change spanLoop default key (fuelFor (input.length + 1)) none none ⟨input, 1,
        0⟩ = .ok found ↔ _
      rw [hloop]
      constructor
      · intro h
        obtain ⟨⟨entries, cur⟩, hread, rfl⟩ := map_eq_ok h
        have hwritten := (written_of_parse limits _).2.2 hread (Nat.zero_le _) (Nat.zero_le _)
        have hdepth := hwritten.depth
        have hrest := hwritten.behind.rest
        dsimp only at hrest
        refine ⟨entries, cur.rest, ⟨⟨hwritten.keys, hwritten.wellFormed⟩, ?_, ?_⟩, Option.none_or⟩
        · rwa [Nat.zero_add] at hdepth
        · rw [hrest, encode_dict]
          rfl
      · rintro ⟨entries, rest, ⟨hwellFormed, hlevels, hwritten⟩, rfl⟩
        rw [encode_dict, List.cons_append, List.cons_append, List.cons.injEq, List.append_assoc,
          List.singleton_append] at hwritten
        obtain ⟨-, rfl⟩ := hwritten
        rw [List.length_cons, List.length_append, List.length_cons] at hinput
        have hfew := entriesNodes_le_length entries
        set fuel := fuelFor ((entries.flatMap encodeEntry ++ 101 :: rest).length + 1) with hfuel
        have hread : parseDict limits fuel 0 none ⟨entries.flatMap encodeEntry
            ++ 101 :: rest, 1, 0⟩ = _ :=
          parses_entries entries fuel 0 none rest 1 0 hwellFormed.1 (by simp) hwellFormed.2
            (by rw [hfuel, fuelFor, List.length_append, List.length_cons]; omega)
            (by rw [Nat.zero_add]; exact hlevels)
            (by simp only [limits, List.length_append]; omega) (by omega)
        rw [hread]
        rfl
    · rw [if_neg hfirst]
      constructor
      · intro h
        cases h
      · rintro ⟨entries, rest, ⟨-, -, hwritten⟩, -⟩
        rw [encode_dict] at hwritten
        exact absurd (List.cons.inj hwritten).1.symm hfirst

/-- **The span of a key is the encoding of its value**: there is a span for what starts with a
dictionary, and it is none exactly if the key is absent. -/
theorem dictValueSpan_spec {input : Bytes} (hinput : input.length < 2 ^ 63) (key : Bytes) :
    (∀ found, dictValueSpan input key = .ok found → ∃ entries rest,
      StartsWithDict input entries rest ∧
        found.map (slice input) = (entries.lookup key).map encode)
      ∧ ∀ entries rest, StartsWithDict input entries rest → ∃ found,
        dictValueSpan input key = .ok found ∧
        found.map (slice input) = (entries.lookup key).map encode := by
  have hslice : ∀ entries rest, StartsWithDict input entries rest →
      (spanOf key 1 entries).map (slice input) = (entries.lookup key).map encode := by
    rintro entries rest ⟨-, -, rfl⟩
    have h := slice_spanOf key entries [100] (101 :: rest)
    rw [← h, encode_dict, List.length_singleton, List.singleton_append, List.append_assoc]
    simp only [List.cons_append, List.nil_append]
    rfl
  constructor
  · intro found hfound
    obtain ⟨entries, rest, hdict, rfl⟩ := (dictValueSpan_eq_ok_iff hinput key found).mp hfound
    exact ⟨entries, rest, hdict, hslice entries rest hdict⟩
  · intro entries rest hdict
    exact ⟨spanOf key 1 entries, (dictValueSpan_eq_ok_iff hinput key _).mpr ⟨entries,
      rest, hdict, rfl⟩, hslice entries rest hdict⟩

/-- The key `b` of `d1:ai7e1:b0:e`. -/
theorem dictValueSpan_example :
    (∀ found, dictValueSpan [100, 49, 58, 97, 105, 55, 101, 49, 58, 98, 48, 58,
      101] [98] = .ok found →
      ∃ entries rest, StartsWithDict [100, 49, 58, 97, 105, 55, 101, 49, 58, 98, 48, 58,
        101] entries rest ∧
        found.map (slice [100, 49, 58, 97, 105, 55, 101, 49, 58, 98, 48, 58, 101]) =
          (entries.lookup [98]).map encode)
      ∧ ∀ entries rest, StartsWithDict [100, 49, 58, 97, 105, 55, 101, 49, 58, 98, 48, 58,
        101] entries rest →
        ∃ found, dictValueSpan [100, 49, 58, 97, 105, 55, 101, 49, 58, 98, 48, 58,
          101] [98] = .ok found ∧
          found.map (slice [100, 49, 58, 97, 105, 55, 101, 49, 58, 98, 48, 58, 101]) =
            (entries.lookup [98]).map encode :=
  dictValueSpan_spec (by decide) [98]

end Sporos.Vendor.Bencode
