import Mathlib.Data.List.Basic
import Mathlib.Order.Lattice
import ZephyrRust.Lib.Transition
import ZephyrRust.Time

/-!
# `ZephyrRust.TimeDriver`: the embassy time driver

`zephyr/src/embassy/time_driver.rs`. One `k_timer` serves all async timers. The pending
wake-ups are in a queue of the `embassy-time-queue-utils` crate, which is not part of this
repository. `TimerQueue` is what the driver relies on: a type of queues, the entries that a
queue holds, and what the two calls do to them.

`schedule_wake` and `check_alarm` run in a critical section, so a call is one step. The
clock may advance between any two reads within a call. So a call gets the list of the clock
values that it reads, in order. Its result is `none` when these are not the values of one
complete call.

The arithmetic of `set_alarm` is that of a build without overflow checks. In a build with
them, the sum that wraps around panics.
-/

set_option autoImplicit false

namespace ZephyrRust.TimeDriver

open ZephyrRust.Lib (System)

/-- `u64::MAX`. -/
def u64Max : UInt64 := 0xffffffffffffffff

/-- An `embassy_time_queue_utils::Queue` for wakers of type `W`. An entry is a waker with its
expiration. -/
structure TimerQueue (W : Type) where
  Queue : Type
  new : Queue
  entries : Queue → List (W × UInt64)
  /-- Whether the call changed the queue, and the queue after it. -/
  scheduleWake : Queue → UInt64 → W → Bool × Queue
  /-- The next expiration, the wakers that the call wakes, and the queue after it. -/
  nextExpiration : Queue → UInt64 → UInt64 × List W × Queue
  entries_new : entries new = []
  /-- A call that returns `false` has neither added nor lowered an expiration. -/
  schedule_false : ∀ q time w, (scheduleWake q time w).1 = false →
    ∀ e, e ∈ entries (scheduleWake q time w).2 ↔ e ∈ entries q
  /-- A call adds nothing but the given expiration. -/
  schedule_true : ∀ q time w, ∀ e ∈ entries (scheduleWake q time w).2,
    e = (w, time) ∨ e ∈ entries q
  /-- `next_expiration` removes exactly the entries at or before `now`. -/
  mem_next : ∀ q now e, e ∈ entries (nextExpiration q now).2.2 ↔ e ∈ entries q ∧ now < e.2
  /-- It wakes exactly the tasks of these entries. -/
  woken_next : ∀ q now w, w ∈ (nextExpiration q now).2.1 ↔
    ∃ time, (w, time) ∈ entries q ∧ time ≤ now
  /-- It returns a lower bound of the expirations that remain. -/
  next_le : ∀ q now, ∀ e ∈ entries (nextExpiration q now).2.2, (nextExpiration q now).1 ≤ e.2
  /-- The bound is one of these expirations, or `u64::MAX` when none remains. -/
  next_mem : ∀ q now,
    (∃ e ∈ entries (nextExpiration q now).2.2, e.2 = (nextExpiration q now).1) ∨
    entries (nextExpiration q now).2.2 = [] ∧ (nextExpiration q now).1 = u64Max

/-- A call of `k_timer_start`. `next` and `now` are the arguments of the `set_alarm` that
makes the call. -/
structure Start where
  delta : Timeout
  period : Timeout
  next : UInt64
  now : UInt64
  deriving DecidableEq

/-- `ZTimer`. `running` is the `k_timer_start` that the timer runs for. -/
structure ZTimer where
  initialized : Bool
  running : Option Start

/-- The `k_timeout_t` that `set_alarm` computes. -/
def alarmDelta (next now : UInt64) : Timeout :=
  ⟨(next - now + 1).toInt64⟩

/-- `ZTimer::set_alarm`. -/
def ZTimer.setAlarm (timer : ZTimer) (next now : UInt64) : Bool × ZTimer :=
  if next ≤ now then (false, timer)
  else
    -- `k_timer_init` on the first alarm.
    let timer := if !timer.initialized then { timer with initialized := true } else timer
    let start : Start :=
      { delta := alarmDelta next now, period := .forever, next := next, now := now }
    (true, { timer with running := some start })

variable {W : Type} {Q : TimerQueue W}

/-- A call of `next_expiration`: the clock value it got, the entries it found, and the
wakers it woke. -/
structure Read (W : Type) where
  now : UInt64
  before : List (W × UInt64)
  woken : List W

/-- `ZephyrTimeDriver`. `reads` records the `next_expiration` calls. -/
structure Driver (Q : TimerQueue W) where
  queue : Q.Queue
  timer : ZTimer
  reads : List (Read W)

namespace Driver

variable (d : Driver Q)

/-- `queue.next_expiration(now)`: the result and the driver after it. -/
def nextExpiration (now : UInt64) : UInt64 × Driver Q :=
  let r := Q.nextExpiration d.queue now
  (r.1, { d with
    queue := r.2.2
    reads := d.reads ++ [{ now := now, before := Q.entries d.queue, woken := r.2.1 }] })

/-- The loop `while !timer.set_alarm(next, self.now())`, whose body is
`next = queue.next_expiration(self.now())`. -/
def arm (d : Driver Q) (next : UInt64) : List UInt64 → Option (Driver Q)
  | [] => none
  | now :: rest =>
    -- The alarm is refused when the clock has reached `next` in the meantime.
    let r := d.timer.setAlarm next now
    if r.1 then
      match rest with
      | [] => some { d with timer := r.2 }
      | _ :: _ => none
    else
      match rest with
      | [] => none
      | now' :: rest =>
        let n := d.nextExpiration now'
        arm n.2 n.1 rest

/-- The body of `check_alarm`, which is also the end of `schedule_wake`. -/
def rearm : List UInt64 → Option (Driver Q)
  | [] => none
  | now :: rest =>
    let n := d.nextExpiration now
    n.2.arm n.1 rest

/-- `ZephyrTimeDriver::schedule_wake`. -/
def scheduleWake (time : UInt64) (w : W) (clock : List UInt64) : Option (Driver Q) :=
  -- The timer is left alone when the queue says that nothing changed.
  let r := Q.scheduleWake d.queue time w
  let d := { d with queue := r.2 }
  if r.1 then d.rearm clock
  else
    match clock with
    | [] => some d
    | _ :: _ => none

/-- `ZephyrTimeDriver::check_alarm`. -/
def checkAlarm (clock : List UInt64) : Option (Driver Q) := d.rearm clock

/-- The timer expires and calls `timer_tick`. Its period is `K_FOREVER`, so it does not
start again by itself. -/
def timerTick (clock : List UInt64) : Option (Driver Q) :=
  match d.timer.running with
  | none => none
  | some _ => { d with timer := { d.timer with running := none } }.checkAlarm clock

end Driver

/-- The driver and the last value of the clock. -/
structure St (Q : TimerQueue W) where
  driver : Driver Q
  clock : UInt64

/-- The actions, each with the clock values that are read during it. -/
inductive Act (W : Type)
  | scheduleWake (time : UInt64) (w : W) (clock : List UInt64)
  | timerTick (clock : List UInt64)

/-- The clock values of an action. -/
def Act.clock : Act W → List UInt64
  | .scheduleWake _ _ clock => clock
  | .timerTick clock => clock

/-- The driver between calls, under a clock that never goes back. -/
def driver (Q : TimerQueue W) : System (St Q) (Act W) where
  init := {
    driver := { queue := Q.new, timer := { initialized := false, running := none }, reads := [] }
    clock := 0 }
  step s a :=
    -- A clock that goes back is no run.
    if (s.clock :: a.clock).Pairwise (· ≤ ·) then
      let d := match a with
        | .scheduleWake time w clock => s.driver.scheduleWake time w clock
        | .timerTick clock => s.driver.timerTick clock
      d.map fun d => { driver := d, clock := a.clock.getLastD s.clock }
    else none

/-- The least expiration of a list, or `u64::MAX`. -/
def leastExpiration (l : List (W × UInt64)) : UInt64 :=
  l.foldr (fun e m => if e.2 ≤ m then e.2 else m) u64Max

theorem leastExpiration_le (l : List (W × UInt64)) : ∀ e ∈ l, leastExpiration l ≤ e.2 := by
  induction l with
  | nil => simp
  | cons a l ih =>
    intro e he
    show (if a.2 ≤ leastExpiration l then a.2 else leastExpiration l) ≤ e.2
    rcases List.mem_cons.mp he with rfl | he
    · split
      · exact UInt64.le_refl _
      · exact UInt64.le_of_lt (UInt64.not_le.mp ‹_›)
    · split
      · exact UInt64.le_trans ‹_› (ih e he)
      · exact ih e he

theorem leastExpiration_mem (l : List (W × UInt64)) :
    (∃ e ∈ l, e.2 = leastExpiration l) ∨ l = [] ∧ leastExpiration l = u64Max := by
  induction l with
  | nil => exact Or.inr ⟨rfl, rfl⟩
  | cons a l ih =>
    refine Or.inl ?_
    show ∃ e ∈ a :: l, e.2 = if a.2 ≤ leastExpiration l then a.2 else leastExpiration l
    split
    · exact ⟨a, List.mem_cons_self, rfl⟩
    · rename_i hlt
      rcases ih with ⟨e, he, hm⟩ | ⟨-, hmax⟩
      · exact ⟨e, List.mem_cons_of_mem a he, hm⟩
      · -- No expiration is above `u64::MAX`.
        rw [hmax] at hlt
        have := a.2.toNat_lt
        simp [u64Max, UInt64.le_iff_toNat_le] at hlt
        omega

/-- A queue as a list with one entry for each waker. -/
def TimerQueue.list (W : Type) [DecidableEq W] : TimerQueue W where
  Queue := List (W × UInt64)
  new := []
  entries q := q
  scheduleWake q time w :=
    if q.any fun e => e.1 = w ∧ e.2 ≤ time then (false, q)
    else (true, (w, time) :: q.filter fun e => e.1 ≠ w)
  nextExpiration q now :=
    let rest := q.filter fun e => now < e.2
    (leastExpiration rest, (q.filter fun e => e.2 ≤ now).map Prod.fst, rest)
  entries_new := rfl
  schedule_false q time w h e := by
    split at h <;> simp_all
  schedule_true q time w e h := by
    split at h
    · exact Or.inr h
    · rcases List.mem_cons.mp h with h | h
      · exact Or.inl h
      · exact Or.inr (List.mem_filter.mp h).1
  mem_next q now e := by simp
  woken_next q now w := by simp
  next_le q now := leastExpiration_le _
  next_mem q now := leastExpiration_mem _

end ZephyrRust.TimeDriver
