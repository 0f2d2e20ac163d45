import Mathlib.Data.Int.Order.Basic

/-!
# `ZephyrRust.Time`: the kernel's timeout values

`zephyr/src/time.rs`, with 64-bit ticks (`CONFIG_TIMEOUT_64BIT`). A `k_timeout_t` is a signed
tick count whose range says what kind of timeout it is: 0 does not wait, a positive number
is a delay from now, -1 never expires, and a number below -1 is an absolute time.

The conversions of a `Duration` and of an `Instant` depend on how the crate is built: with debug
assertions they check what they do, and without them a tick count that is out of range becomes
the default 0. The overflow checks of the arithmetic are an option of their own.
-/

set_option autoImplicit false

namespace ZephyrRust

/-- `Timeout`, a `k_timeout_t`. -/
structure Timeout where
  ticks : Int64
  deriving DecidableEq

namespace Timeout

/-- `K_FOREVER`. -/
def forever : Timeout := ⟨-1⟩

/-- `K_NO_WAIT`. -/
def noWait : Timeout := ⟨0⟩

/-- What the kernel reads in a `k_timeout_t`. -/
inductive Kind
  | noWait
  /-- A delay from now, in ticks. -/
  | relative (ticks : Int)
  | forever
  /-- A time since the start of the system, in ticks. -/
  | absolute (ticks : Int)
  deriving DecidableEq, Repr

/-- The kind of a timeout, by its range. `Instant`s are encoded as `-1 - 1 - ticks`. -/
def kind (t : Timeout) : Kind :=
  let n := t.ticks.toInt
  if n = 0 then .noWait
  else if 0 < n then .relative n
  else if n = -1 then .forever
  else .absolute (-2 - n)

end Timeout

/-! ## Conversions -/

/-- How the crate is built: `debug_assertions` and `overflow_checks`. -/
structure Build where
  debugAssertions : Bool
  overflowChecks : Bool

/-- A build with all checks. -/
def Build.debug : Build where
  debugAssertions := true
  overflowChecks := true

/-- A build without checks. -/
def Build.release : Build where
  debugAssertions := false
  overflowChecks := false

namespace Time

/-- Where a conversion panics. -/
inductive Panic
  /-- "Overflow in time conversion" -/
  | overflow
  /-- `debug_assert_ne!(ticks, crate::sys::K_FOREVER.ticks)` -/
  | isForever
  /-- `debug_assert_ne!(ticks, crate::sys::K_NO_WAIT.ticks)` -/
  | isNoWait
  /-- The overflow check of a subtraction. -/
  | subtract
  deriving DecidableEq

/-- `u64::try_into::<i64>`. -/
def tryInto (tick : UInt64) : Option Int64 :=
  if (tick.toNat : Int) ≤ Int64.maxValue.toInt then some (Int64.ofInt tick.toNat) else none

/-- `checked_cast`. -/
def checkedCast {I O : Type} [Inhabited O] (tryInto : I → Option O) (b : Build) (tick : I) :
    Except Panic O :=
  if b.debugAssertions then
    match tryInto tick with
    | some ticks => .ok ticks
    | none => .error .overflow
  else .ok ((tryInto tick).getD default)

/-- `debug_assert_ne!`. -/
def debugAssertNe (b : Build) (x y : Int64) (p : Panic) : Except Panic Unit :=
  if b.debugAssertions ∧ x = y then .error p else .ok ()

/-- The operator `-` on `i64`. It wraps around when it is not checked. -/
def sub (b : Build) (x y : Int64) : Except Panic Int64 :=
  let n := x.toInt - y.toInt
  if b.overflowChecks ∧ (n < Int64.minValue.toInt ∨ Int64.maxValue.toInt < n) then
    .error .subtract
  else .ok (x - y)

end Time

/-- `Duration`, a span of time. -/
structure Duration where
  ticks : UInt64

/-- `Instant`, a time since the start of the system. -/
structure Instant where
  ticks : UInt64

namespace Timeout

/-- `From<Duration>`. -/
def ofDuration (b : Build) (value : Duration) : Except Time.Panic Timeout := do
  let ticks ← Time.checkedCast Time.tryInto b value.ticks
  Time.debugAssertNe b ticks forever.ticks .isForever
  Time.debugAssertNe b ticks noWait.ticks .isNoWait
  return ⟨ticks⟩

/-- `From<Instant>`. -/
def ofInstant (b : Build) (value : Instant) : Except Time.Panic Timeout := do
  let ticks ← Time.checkedCast Time.tryInto b value.ticks
  Time.debugAssertNe b ticks forever.ticks .isForever
  Time.debugAssertNe b ticks noWait.ticks .isNoWait
  -- `-1 - 1 - ticks`
  let start ← Time.sub b (-1) 1
  let ticks ← Time.sub b start ticks
  return ⟨ticks⟩

/-- The positive timeouts are the relative ones. -/
theorem kind_eq_relative {t : Timeout} {n : Int} :
    t.kind = .relative n ↔ 0 < n ∧ t.ticks.toInt = n := by
  simp only [kind]
  split
  · constructor
    · intro h
      cases h
    · omega
  · split
    · constructor
      · intro h
        cases h
        exact ⟨‹_›, rfl⟩
      · rintro ⟨-, h⟩
        rw [h]
    · split
      · constructor
        · intro h
          cases h
        · omega
      · constructor
        · intro h
          cases h
        · omega

end Timeout

end ZephyrRust
