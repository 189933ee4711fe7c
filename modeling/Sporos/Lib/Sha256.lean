import Mathlib.Tactic

/-! # SHA-256

The hash function on lists of bytes. Words are natural numbers below `2 ^ 32`; the schedule of a
block is kept with its last word first. -/

namespace Sporos.Lib.Sha256

/-- A rotation of 32 bits to the right. -/
def rotr (x n : Nat) : Nat := (x >>> n ||| x <<< (32 - n)) % 2 ^ 32

/-- The constants of the rounds. -/
def roundConstants : List Nat :=
  [0x428a2f98, 0x71374491, 0xb5c0fbcf, 0xe9b5dba5, 0x3956c25b, 0x59f111f1, 0x923f82a4, 0xab1c5ed5,
    0xd807aa98, 0x12835b01, 0x243185be, 0x550c7dc3, 0x72be5d74, 0x80deb1fe, 0x9bdc06a7, 0xc19bf174,
    0xe49b69c1, 0xefbe4786, 0x0fc19dc6, 0x240ca1cc, 0x2de92c6f, 0x4a7484aa, 0x5cb0a9dc, 0x76f988da,
    0x983e5152, 0xa831c66d, 0xb00327c8, 0xbf597fc7, 0xc6e00bf3, 0xd5a79147, 0x06ca6351, 0x14292967,
    0x27b70a85, 0x2e1b2138, 0x4d2c6dfc, 0x53380d13, 0x650a7354, 0x766a0abb, 0x81c2c92e, 0x92722c85,
    0xa2bfe8a1, 0xa81a664b, 0xc24b8b70, 0xc76c51a3, 0xd192e819, 0xd6990624, 0xf40e3585, 0x106aa070,
    0x19a4c116, 0x1e376c08, 0x2748774c, 0x34b0bcb5, 0x391c0cb3, 0x4ed8aa4a, 0x5b9cca4f, 0x682e6ff3,
    0x748f82ee, 0x78a5636f, 0x84c87814, 0x8cc70208, 0x90befffa, 0xa4506ceb, 0xbef9a3f7, 0xc67178f2]

/-- The state before the first block. -/
def initialState : List Nat :=
  [0x6a09e667, 0xbb67ae85, 0x3c6ef372, 0xa54ff53a, 0x510e527f, 0x9b05688c, 0x1f83d9ab, 0x5be0cd19]

/-- Further words of the schedule. -/
def extend : Nat → List Nat → List Nat
  | 0, schedule => schedule
  | n + 1, schedule =>
    let w2 := schedule.getD 1 0
    let w15 := schedule.getD 14 0
    let s0 := rotr w15 7 ^^^ rotr w15 18 ^^^ (w15 >>> 3)
    let s1 := rotr w2 17 ^^^ rotr w2 19 ^^^ (w2 >>> 10)
    extend n ((schedule.getD 15 0 + s0 + schedule.getD 6 0 + s1) % 2 ^ 32 :: schedule)

/-- A round, with its constant and its word of the schedule. -/
def round : List Nat → Nat × Nat → List Nat
  | [a, b, c, d, e, f, g, h], (k, w) =>
    let s1 := rotr e 6 ^^^ rotr e 11 ^^^ rotr e 25
    let choice := (e &&& f) ^^^ ((2 ^ 32 - 1 - e) &&& g)
    let t1 := h + s1 + choice + k + w
    let s0 := rotr a 2 ^^^ rotr a 13 ^^^ rotr a 22
    let majority := (a &&& b) ^^^ (a &&& c) ^^^ (b &&& c)
    [(t1 + s0 + majority) % 2 ^ 32, a, b, c, (d + t1) % 2 ^ 32, e, f, g]
  | state, _ => state

/-- The state after one more block. -/
def compress (state block : List Nat) : List Nat :=
  let schedule := (extend 48 block.reverse).reverse
  List.zipWith (fun a b => (a + b) % 2 ^ 32) state ((roundConstants.zip schedule).foldl round state)

/-- The words of 32 bits, with the most significant byte first. -/
def words : List UInt8 → List Nat
  | a :: b :: c :: d :: rest =>
    (a.toNat * 2 ^ 24 + b.toNat * 2 ^ 16 + c.toNat * 2 ^ 8 + d.toNat) :: words rest
  | _ => []

/-- The message with the bit `1`, zeros, and its length in bits. -/
def pad (message : List UInt8) : List UInt8 :=
  message ++ 0x80 :: List.replicate ((119 - message.length % 64) % 64) 0
    ++ (List.range 8).map fun i => (8 * message.length / 2 ^ (8 * (7 - i)) % 256).toUInt8

/-- The state after some blocks of 16 words. -/
def compressBlocks : Nat → List Nat → List Nat → List Nat
  | 0, state, _ => state
  | n + 1, state, rest => compressBlocks n (compress state (rest.take 16)) (rest.drop 16)

/-- The hash of a message. -/
def sha256 (message : List UInt8) : BitVec 256 :=
  let rest := words (pad message)
  .ofNat 256
    ((compressBlocks (rest.length / 16) initialState rest).foldl (fun value word =>
      value * 2 ^ 32 + word) 0)

example : sha256 [97, 98, 99]
    = 0xba7816bf8f01cfea414140de5dae2223b00361a396177a9cb410ff61f20015ad := by decide +kernel

end Sporos.Lib.Sha256
