import Sporos.Lib.Checked
import Sporos.Service.Outbox
import Sporos.Service.Search

/-! # Delays before a retry

The two delays of the service, with the checks of the machine numbers: `deterministic` of
`retry.rs`, on durations, and `retry_delay` of the outbox, in milliseconds. None of the checks
fails, and the jitter stays in its window (`backoff_bounds`). -/

namespace Sporos.Service.Retry

open Sporos.Service.Tables
open Sporos.Service.Search
open Sporos.Lib.Checked
open Sporos.Lib.Loop

/-! ### Durations -/

/-- A duration: whole seconds, and nanoseconds that are less than a second. -/
structure Duration where
  secs : ℕ
  nanos : ℕ
  secs_lt : secs < 2 ^ 64
  nanos_lt : nanos < 1000000000

namespace Duration

/-- `as_nanos`. -/
def asNanos (d : Duration) : ℕ := d.secs * 1000000000 + d.nanos

/-- `Duration::MAX`. -/
def greatest : Duration := ⟨u64Max, 999999999, by decide, by decide⟩

/-- The order of the seconds, then of the nanoseconds. -/
def le (a b : Duration) : Prop := a.secs < b.secs ∨ a.secs = b.secs ∧ a.nanos ≤ b.nanos

instance (a b : Duration) : Decidable (a.le b) := inferInstanceAs (Decidable (_ ∨ _))

/-- The shorter duration. -/
def least (a b : Duration) : Duration := if a.le b then a else b

/-- `checked_mul`. -/
def checkedMul (d : Duration) (factor : ℕ) : Option Duration :=
  let totalNanos := d.nanos * factor
  let secs := d.secs * factor + totalNanos / 1000000000
  if h : secs < 2 ^ 64 then some ⟨secs, totalNanos % 1000000000, h,
    Nat.mod_lt _ (by decide)⟩ else none

/-- `saturating_mul`. -/
def saturatingMul (d : Duration) (factor : ℕ) : Duration := (d.checkedMul factor).getD greatest

/-- `Duration::new`: the seconds in the nanoseconds are carried. -/
def new (secs nanos : ℕ) : Except Fault Duration :=
  if h : secs + nanos / 1000000000 < 2 ^ 64 then
    .ok ⟨secs + nanos / 1000000000, nanos % 1000000000, h, Nat.mod_lt _ (by decide)⟩
  else .error .expected

end Duration

/-! ### The delays -/

/-- `checked_shl` of a number with some width. -/
def checkedShl (width n bits : ℕ) : Option ℕ :=
  if bits < width then some (n * 2 ^ bits % 2 ^ width) else none

/-- `saturating_mul` of `u128`. -/
def saturatingMul (a b : ℕ) : ℕ := min (a * b) (2 ^ 128 - 1)

/-- `try_from` of an unsigned number. -/
def tryFrom (width n : ℕ) : Option ℕ := if n < 2 ^ width then some n else none

/-- `deterministic`. -/
def deterministic (base max : Duration) (attempt : UInt32) (key : List Bytes) :
    Except Fault Duration := do
  let factor := (checkedShl 32 1 (min (attempt.toNat - 1) 31)).getD (2 ^ 32 - 1)
  let delay := (base.saturatingMul factor).least max
  let random := (mix (seed key ^^^ attempt.toUInt64)).toNat
  let delayNanos := delay.asNanos
  let window := saturatingMul delayNanos jitterPercent / 100
  let offset := saturatingMul window random / u64Max
  let kept ← sub delayNanos window
  let jittered ← u128 (kept + offset)
  let seconds ← expect (tryFrom 64 (jittered / 1000000000))
  let nanoseconds ← expect (tryFrom 32 (jittered % 1000000000))
  Duration.new seconds nanoseconds

/-- A number of `i64`, at the end of the range when it is outside of it. -/
def clampI64 (x : ℤ) : ℤ := max (-2 ^ 63) (min x i64Max)

/-- The 64 bits of a number as an `i64`. -/
def asI64 (n : ℕ) : ℤ := if n < 2 ^ 63 then n else n - 2 ^ 64

/-- The remainder of a division by zero is a fault. -/
def rem (n m : UInt64) : Except Fault UInt64 := if m = 0 then .error .overflow else .ok (n % m)

/-- `retry_delay`. -/
def retryDelay (id : I64) (attempt : UInt64) : Except Fault ℤ := do
  let exponent := min (attempt.toNat - 1) 18
  let shifted := ((checkedShl 64 1 exponent).map asI64).getD i64Max
  let base : ℤ := min (clampI64 (Outbox.initialBackoffMs * shifted)) Outbox.maxBackoffMs
  let jitterWindow := max (base / 5) 1
  let mixed := id.val.natAbs.toUInt64 ^^^ (attempt * 0x9e3779b97f4a7c15)
  let jitter ← rem mixed jitterWindow.toNat.toUInt64
  return min (clampI64 (base + asI64 jitter.toNat)) Outbox.maxBackoffMs

/-! ### Durations as numbers -/

namespace Duration

variable {a b d : Duration}

theorem asNanos_lt (d : Duration) : d.asNanos < 2 ^ 64 * 1000000000 := by
  have hsecs := d.secs_lt
  have hnanos := d.nanos_lt
  unfold asNanos
  omega

theorem le_iff : a.le b ↔ a.asNanos ≤ b.asNanos := by
  have ha := a.nanos_lt
  have hb := b.nanos_lt
  unfold le asNanos
  omega

theorem asNanos_least : (a.least b).asNanos = min a.asNanos b.asNanos := by
  unfold least
  split_ifs with h
  · exact (min_eq_left (le_iff.mp h)).symm
  · exact (min_eq_right (le_of_lt (not_le.mp (le_iff.not.mp h)))).symm

/-- A product is exact, or beyond the longest duration. -/
theorem asNanos_saturatingMul (d : Duration) (factor : ℕ) :
    (d.saturatingMul factor).asNanos = min (d.asNanos * factor) greatest.asNanos := by
  have htotal : d.asNanos * factor
      = (d.secs * factor + d.nanos * factor / 1000000000) * 1000000000
        + d.nanos * factor % 1000000000 := by
    have hdiv := Nat.div_add_mod (d.nanos * factor) 1000000000
    calc d.asNanos * factor = d.secs * factor * 1000000000 + d.nanos * factor := by
          unfold asNanos
          ring
      _ = d.secs * factor * 1000000000
          + (1000000000 * (d.nanos * factor / 1000000000) + d.nanos * factor % 1000000000) := by
          rw [hdiv]
      _ = _ := by ring
  have hmod := Nat.mod_lt (d.nanos * factor) (show 0 < 1000000000 by decide)
  have hgreatest : greatest.asNanos = 2 ^ 64 * 1000000000 - 1 := by decide
  unfold saturatingMul checkedMul
  dsimp only
  rw [htotal, hgreatest]
  generalize d.secs * factor + d.nanos * factor / 1000000000 = secs
  split_ifs with h
  · simp only [Option.getD_some, asNanos]
    generalize d.nanos * factor % 1000000000 = nanos at hmod ⊢
    omega
  · rw [Option.getD_none, hgreatest]
    generalize d.nanos * factor % 1000000000 = nanos at hmod ⊢
    omega

theorem new_eq_ok {secs nanos : ℕ} (hsecs : secs < 2 ^ 64) (hnanos : nanos < 1000000000) :
    ∃ d, new secs nanos = .ok d ∧ d.asNanos = secs * 1000000000 + nanos := by
  have hdiv : nanos / 1000000000 = 0 := Nat.div_eq_of_lt hnanos
  have hmod : nanos % 1000000000 = nanos := Nat.mod_eq_of_lt hnanos
  have hcarried : secs + nanos / 1000000000 < 2 ^ 64 := by omega
  refine ⟨_, dif_pos hcarried, ?_⟩
  simp only [asNanos, hdiv, hmod, Nat.add_zero]

end Duration

/-! ### The jitter -/

/-- The offset stays in the window, also where the product saturates. -/
theorem offset_le (window : ℕ) {random : ℕ} (hrandom : random ≤ u64Max) :
    saturatingMul window random / u64Max ≤ window := by
  refine Nat.div_le_of_le_mul ?_
  calc saturatingMul window random ≤ window * random := min_le_left _ _
    _ ≤ window * u64Max := Nat.mul_le_mul_left _ hrandom
    _ = u64Max * window := Nat.mul_comm _ _

theorem toNat_le (n : UInt64) : n.toNat ≤ u64Max := by
  have h := n.toNat_lt
  unfold u64Max
  omega

/-- **The delay of an attempt** is the one before the jitter, less a part of its window. -/
theorem deterministic_eq_ok (base max : Duration) (attempt : UInt32) (key : List Bytes) :
    ∃ delay, deterministic base max attempt key = .ok delay
      ∧ delay.asNanos =
        let d := min (base.asNanos * 2 ^ min (attempt.toNat - 1) 31) max.asNanos
        d - d / 5 + saturatingMul (d / 5) (mix (seed key ^^^ attempt.toUInt64)).toNat / u64Max := by
  have hfactor : (checkedShl 32 1 (min (attempt.toNat - 1) 31)).getD (2 ^ 32 - 1) =
      2 ^ min (attempt.toNat - 1) 31 := by
    have hbits : min (attempt.toNat - 1) 31 < 32 := by omega
    have hpow : 2 ^ min (attempt.toNat - 1) 31 < 2 ^ 32 := Nat.pow_lt_pow_right (by decide) hbits
    rw [checkedShl, if_pos hbits, Option.getD_some, Nat.one_mul, Nat.mod_eq_of_lt hpow]
  have hdelay : ((base.saturatingMul (2 ^ min (attempt.toNat - 1) 31)).least max).asNanos
      = min (base.asNanos * 2 ^ min (attempt.toNat - 1) 31) max.asNanos := by
    have hle : max.asNanos ≤ Duration.greatest.asNanos := by
      have hlt := max.asNanos_lt
      have hgreatest : Duration.greatest.asNanos = 2 ^ 64 * 1000000000 - 1 := by decide
      omega
    rw [Duration.asNanos_least, Duration.asNanos_saturatingMul, min_assoc, min_eq_right hle]
  have hlt := ((base.saturatingMul (2 ^ min (attempt.toNat - 1) 31)).least max).asNanos_lt
  rw [hdelay] at hlt
  unfold deterministic
  simp only [hfactor, hdelay]
  generalize min (base.asNanos * 2 ^ min (attempt.toNat - 1) 31) max.asNanos = d at hlt ⊢
  have hoffset := offset_le (d / 5) (toNat_le (mix (seed key ^^^ attempt.toUInt64)))
  have hwindow : saturatingMul d jitterPercent / 100 = d / 5 := by
    unfold saturatingMul jitterPercent
    omega
  rw [hwindow]
  generalize saturatingMul (d / 5) (mix (seed key ^^^ attempt.toUInt64)).toNat / u64Max =
    offset at hoffset ⊢
  have hseconds : (d - d / 5 + offset) / 1000000000 < 2 ^ 64 := Nat.div_lt_of_lt_mul (by omega)
  have hnanos : (d - d / 5 + offset) % 1000000000 < 1000000000 := Nat.mod_lt _ (by decide)
  obtain ⟨delay, hnew, hasNanos⟩ := Duration.new_eq_ok hseconds hnanos
  refine ⟨delay, ?_, by rw [hasNanos]; omega⟩
  rw [sub_eq (by omega), ok_bind, u128_eq (by omega), ok_bind, tryFrom, if_pos hseconds, expect,
    ok_bind, tryFrom, if_pos (by omega), expect, ok_bind, hnew]

/-- **The delay of the outbox** is the one without checks. -/
theorem retryDelay_eq_ok (id : I64) (attempt : UInt64) :
    retryDelay id attempt = .ok (Outbox.retryDelay id.val.natAbs attempt.toNat : ℤ) := by
  have hexponent : min (attempt.toNat - 1) 18 < 64 := by omega
  have hpow : 2 ^ min (attempt.toNat - 1) 18 ≤ 2 ^ 18 :=
    Nat.pow_le_pow_right (by decide) (min_le_right _ _)
  have hshifted : ((checkedShl 64 1 (min (attempt.toNat - 1) 18)).map asI64).getD i64Max
      = ((2 ^ min (attempt.toNat - 1) 18 : ℕ) : ℤ) := by
    rw [checkedShl, if_pos hexponent, Nat.one_mul, Nat.mod_eq_of_lt (by omega), Option.map_some,
      Option.getD_some, asI64, if_pos (by omega)]
  unfold retryDelay Outbox.retryDelay
  dsimp only
  rw [hshifted]
  generalize 2 ^ min (attempt.toNat - 1) 18 = factor at hpow
  have hbase : min (clampI64 (Outbox.initialBackoffMs * factor)) Outbox.maxBackoffMs
      = ((min (Outbox.initialBackoffMs * factor) Outbox.maxBackoffMs : ℕ) : ℤ) := by
    unfold clampI64 Outbox.initialBackoffMs Outbox.maxBackoffMs i64Max
    omega
  rw [hbase]
  have hmax : min (Outbox.initialBackoffMs * factor) Outbox.maxBackoffMs ≤ 300000 :=
    min_le_right _ _
  generalize min (Outbox.initialBackoffMs * factor) Outbox.maxBackoffMs = base at hmax
  have hwindow : max ((base : ℤ) / 5) 1 = ((max (base / 5) 1 : ℕ) : ℤ) := by omega
  have hpositive : 0 < max (base / 5) 1 := by omega
  have hsmall : max (base / 5) 1 ≤ 60000 := by omega
  rw [hwindow, Int.toNat_natCast]
  generalize max (base / 5) 1 = window at hpositive hsmall ⊢
  have htoNat : window.toUInt64.toNat = window := by
    rw [Nat.toUInt64, UInt64.toNat_ofNat', Nat.mod_eq_of_lt (by omega)]
  have hne : window.toUInt64 ≠ 0 := by
    intro hzero
    rw [hzero] at htoNat
    have hzero' : (0 : UInt64).toNat = 0 := rfl
    omega
  have hid : id.val.natAbs.toUInt64.toNat = id.val.natAbs := by
    have hrange := id.property
    unfold i64Max at hrange
    rw [Nat.toUInt64, UInt64.toNat_ofNat', Nat.mod_eq_of_lt (by omega)]
  have hmixed : (id.val.natAbs.toUInt64 ^^^ (attempt * 0x9e3779b97f4a7c15)).toNat
      = id.val.natAbs ^^^ (attempt.toNat * 0x9e3779b97f4a7c15 % 2 ^ 64) := by
    rw [UInt64.toNat_xor, hid, UInt64.toNat_mul]
    rfl
  rw [rem, if_neg hne, ok_bind, UInt64.toNat_mod, htoNat, hmixed]
  generalize id.val.natAbs ^^^ (attempt.toNat * 0x9e3779b97f4a7c15 % 2 ^ 64) = mixed
  have hjitter := Nat.mod_lt mixed hpositive
  have hi64 : asI64 (mixed % window) = ((mixed % window : ℕ) : ℤ) := if_pos (by omega)
  rw [hi64]
  generalize mixed % window = jitter at hjitter
  refine congrArg Except.ok ?_
  unfold clampI64 i64Max Outbox.maxBackoffMs
  omega

/-- **The bounds of the delays.** A delay of `deterministic` is at most the one before the jitter,
and at least that without a fifth of it. A delay of the outbox is at least the one before the
jitter, and at most the longest one. -/
theorem backoff_bounds :
    (∀ (base max : Duration) (attempt : UInt32) (key : List Bytes),
      let d := min (base.asNanos * 2 ^ (min (Max.max attempt.toNat 1) 32 - 1)) max.asNanos
      ∃ delay, deterministic base max attempt key = .ok delay ∧ d - d / 5 ≤ delay.asNanos
        ∧ delay.asNanos ≤ d)
    ∧ ∀ (id : I64) (attempt : UInt64),
      ∃ delay, retryDelay id attempt = .ok delay
        ∧ ((min (Outbox.initialBackoffMs * 2 ^ (min attempt.toNat 19 - 1))
          Outbox.maxBackoffMs : ℕ) : ℤ) ≤ delay
        ∧ delay ≤ Outbox.maxBackoffMs := by
  refine ⟨fun base max attempt key => ?_, fun id attempt => ?_⟩
  · have hexponent : min (Max.max attempt.toNat 1) 32 - 1 = min (attempt.toNat - 1) 31 := by omega
    obtain ⟨delay, hok, hdelay⟩ := deterministic_eq_ok base max attempt key
    have hoffset := offset_le (min (base.asNanos * 2 ^ min (attempt.toNat - 1) 31) max.asNanos / 5)
      (toNat_le (mix (seed key ^^^ attempt.toUInt64)))
    dsimp only at hdelay
    rw [hexponent]
    dsimp only
    generalize min (base.asNanos * 2 ^ min (attempt.toNat - 1) 31) max.asNanos =
      d at hoffset hdelay ⊢
    generalize saturatingMul (d / 5) (mix (seed key ^^^ attempt.toUInt64)).toNat / u64Max =
      offset at hoffset hdelay
    exact ⟨delay, hok, by omega, by omega⟩
  · have hexponent : min attempt.toNat 19 - 1 = min (attempt.toNat - 1) 18 := by omega
    refine ⟨_, retryDelay_eq_ok id attempt, ?_, ?_⟩
    · rw [hexponent]
      exact Int.ofNat_le.mpr (le_min (Nat.le_add_right _ _) (min_le_right _ _))
    · exact Int.ofNat_le.mpr (min_le_right _ _)

end Sporos.Service.Retry
