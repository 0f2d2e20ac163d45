/-!
# `ZephyrRust.Lib.Lock`: critical sections

A lock is the party that holds it, if any. `LockStep` lists what a step of one party can do
to a lock and to its own presence in the critical section. It says enough to keep the
invariant that every party in the section holds the lock: `LockStep.self` for the party that
moves, and `LockStep.other` for all others.
-/

set_option autoImplicit false

namespace ZephyrRust.Lib

variable {P : Type}

/-- What a step of party `p` does to a lock, where `inside` and `inside'` say whether `p` is in
the critical section before and after it. -/
inductive LockStep (p : P) (lock lock' : Option P) (inside inside' : Prop) : Prop
  | keep (hl : lock' = lock) (hi : inside' → inside)
  | take (hl : lock = none) (hl' : lock' = some p)
  | release (hi : inside) (hi' : ¬inside') (hl' : lock' = none)

namespace LockStep

variable {p q : P} {lock lock' : Option P} {inside inside' : Prop}

/-- The party that moves holds the lock when it is in the section. -/
theorem self (h : LockStep p lock lock' inside inside') (hp : inside → lock = some p)
    (hi' : inside') : lock' = some p := by
  cases h with
  | keep hl hi =>
    rw [hl]
    exact hp (hi hi')
  | take hl hl' => exact hl'
  | release hi hout hl' => exact absurd hi' hout

/-- Another party that holds the lock keeps it: the lock is not free, and the party that moves
is not in the section. -/
theorem other (h : LockStep p lock lock' inside inside') (hp : inside → lock = some p)
    (hne : q ≠ p) (hq : lock = some q) : lock' = some q := by
  cases h with
  | keep hl hi =>
    rw [hl]
    exact hq
  | take hl hl' =>
    rw [hl] at hq
    cases hq
  | release hi hout hl' =>
    have hpq := hq.symm.trans (hp hi)
    exact absurd (Option.some.inj hpq) hne

/-- Another party that holds the lock held it before. -/
theorem other_before (h : LockStep p lock lock' inside inside') (hne : q ≠ p)
    (hq : lock' = some q) : lock = some q := by
  cases h with
  | keep hl hi =>
    rw [← hl]
    exact hq
  | take hl hl' =>
    have hpq := hq.symm.trans hl'
    exact absurd (Option.some.inj hpq) hne
  | release hi hout hl' =>
    rw [hl'] at hq
    cases hq

end LockStep

end ZephyrRust.Lib
