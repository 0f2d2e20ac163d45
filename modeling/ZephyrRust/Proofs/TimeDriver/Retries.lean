import Mathlib.Data.Finset.Card
import ZephyrRust.Proofs.TimeDriver

/-!
# `ZephyrRust.Proofs.TimeDriver.Retries`: the re-arm loops terminate

The loop calls `next_expiration` again when `set_alarm` refuses, and `set_alarm` refuses when the
clock has reached `next` in the meantime. Then `next` is the time of an entry, because the clock
does not reach `u64::MAX`. The clock does not go back, so this retry removes the entry
(`removed_of_refused`). The measure is the number of different expirations in the queue
(`expirations_lt`), and `arm_ends` is the induction over it.

The clock is a sequence without an end here. A call reads a prefix of it.
-/

set_option autoImplicit false

namespace ZephyrRust.TimeDriver

variable {W : Type} {Q : TimerQueue W}

/-- A clock that does not go back and does not reach `u64::MAX`. -/
structure Steady (clock : Nat → UInt64) : Prop where
  mono : ∀ i j, i ≤ j → clock i ≤ clock j
  lt_max : ∀ i, clock i < u64Max

/-- The first `n` values of a clock. -/
def readings (clock : Nat → UInt64) (n : Nat) : List UInt64 := (List.range n).map clock

/-- The first value, and then those of the clock after it. -/
theorem readings_succ (clock : Nat → UInt64) (n : Nat) :
    readings clock (n + 1) = clock 0 :: readings (fun i => clock (i + 1)) n := by
  rw [readings, List.range_succ_eq_map, List.map_cons, List.map_map]
  rfl

/-- A clock that was read is still steady. -/
theorem Steady.shift {clock : Nat → UInt64} (h : Steady clock) (k : Nat) :
    Steady fun i => clock (i + k) where
  mono i j hij := h.mono (i + k) (j + k) (Nat.add_le_add_right hij k)
  lt_max i := h.lt_max (i + k)

/-- The different expirations of a queue. -/
def expirations (q : Q.Queue) : Finset UInt64 := ((Q.entries q).map Prod.snd).toFinset

theorem mem_expirations {q : Q.Queue} {time : UInt64} :
    time ∈ expirations q ↔ ∃ e ∈ Q.entries q, e.2 = time := by
  rw [expirations, List.mem_toFinset, List.mem_map]

theorem card_expirations_le (q : Q.Queue) :
    (expirations q).card ≤ (Q.entries q).length := by
  have h := List.toFinset_card_le ((Q.entries q).map Prod.snd)
  rwa [List.length_map] at h

/-- The expirations after a `next_expiration`. -/
theorem mem_expirations_next {q : Q.Queue} {now time : UInt64} :
    time ∈ expirations (Q.nextExpiration q now).2.2 ↔ time ∈ expirations q ∧ now < time := by
  rw [mem_expirations, mem_expirations]
  constructor
  · intro ⟨e, he, htime⟩
    obtain ⟨hin, hlt⟩ := (Q.mem_next q now e).mp he
    exact ⟨⟨e, hin, htime⟩, htime ▸ hlt⟩
  · intro ⟨⟨e, he, htime⟩, hlt⟩
    exact ⟨e, (Q.mem_next q now e).mpr ⟨he, htime ▸ hlt⟩, htime⟩

/-- An alarm that is refused: `next` is the time of an entry, and a later `next_expiration` removes
every entry with this time. -/
theorem removed_of_refused {d : Driver Q} {next now now' : UInt64}
    (hnext : IsNext (Q.entries d.queue) next) (hrefused : (d.timer.setAlarm next now).1 = false)
    (hle : now ≤ now') (hmax : now < u64Max) :
    next ≤ now ∧ (∃ e ∈ Q.entries d.queue, e.2 = next) ∧
      ∀ e ∈ Q.entries (d.nextExpiration now').2.queue, e.2 ≠ next := by
  have hreached : next ≤ now := by
    rw [← Bool.not_eq_true, setAlarm_eq_true, UInt64.not_lt] at hrefused
    exact hrefused
  refine ⟨hreached, ?_, fun e he heq => ?_⟩
  · -- `u64::MAX` would be the time of no entry, and the clock does not reach it.
    cases hnext.2 with
    | inl h => exact h
    | inr h =>
      rw [h.2] at hreached
      exact absurd hmax (UInt64.not_lt.mpr hreached)
  · have hlt := ((Q.mem_next d.queue now' e).mp he).2
    rw [heq] at hlt
    exact UInt64.not_le.mpr hlt (UInt64.le_trans hreached hle)

/-- Each retry leaves fewer expirations. -/
theorem expirations_lt {d : Driver Q} {next now now' : UInt64}
    (hnext : IsNext (Q.entries d.queue) next) (hrefused : (d.timer.setAlarm next now).1 = false)
    (hle : now ≤ now') (hmax : now < u64Max) :
    (expirations (d.nextExpiration now').2.queue).card < (expirations d.queue).card := by
  obtain ⟨-, hin, hout⟩ := removed_of_refused hnext hrefused hle hmax
  apply Finset.card_lt_card
  rw [Finset.ssubset_iff_of_subset]
  · refine ⟨next, mem_expirations.mpr hin, fun hmem => ?_⟩
    obtain ⟨e, he, heq⟩ := mem_expirations.mp hmem
    exact hout e he heq
  · intro time htime
    exact (mem_expirations_next.mp htime).1

/-- The loop ends after at most one retry for each expiration. A round reads the clock once for
`set_alarm`, and a retry once more. -/
theorem arm_ends (d : Driver Q) (next : UInt64) (clock : Nat → UInt64) (hclock : Steady clock)
    (hnext : IsNext (Q.entries d.queue) next) :
    ∃ retries, retries ≤ (expirations d.queue).card ∧
      (d.arm next (readings clock (2 * retries + 1))).isSome := by
  -- The induction is on the number of expirations that are left, and `hnext` is the invariant.
  induction hn : (expirations d.queue).card using Nat.strongRecOn generalizing d next clock with
  | ind n ih =>
    cases halarm : (d.timer.setAlarm next (clock 0)).1 with
    | true =>
      refine ⟨0, Nat.zero_le _, ?_⟩
      show (if (d.timer.setAlarm next (clock 0)).1 then _ else _ : Option (Driver Q)).isSome = true
      rw [if_pos halarm]
      rfl
    | false =>
      have hle : clock 0 ≤ clock 1 := hclock.mono 0 1 (by omega)
      have hlt := expirations_lt hnext halarm hle (hclock.lt_max 0)
      obtain ⟨retries, hretries, hend⟩ := ih _ (hn ▸ hlt) (d.nextExpiration (clock 1)).2
        (d.nextExpiration (clock 1)).1 (fun i => clock (i + 2)) (hclock.shift 2)
        (isNext_nextExpiration d (clock 1)) rfl
      have hreads : 2 * (retries + 1) + 1 = 2 * retries + 1 + 1 + 1 := by omega
      have hrefused : ¬(d.timer.setAlarm next (clock 0)).1 = true := by
        rw [halarm]
        exact Bool.false_ne_true
      -- The refusal has read the clock once, and `next_expiration` reads it again.
      refine ⟨retries + 1, by omega, ?_⟩
      rw [hreads, readings_succ, readings_succ, Driver.arm, if_neg hrefused]
      exact hend

/-- The body of `check_alarm` ends. -/
theorem rearm_ends (d : Driver Q) (clock : Nat → UInt64) (hclock : Steady clock) :
    ∃ retries, retries ≤ (expirations d.queue).card ∧
      (d.rearm (readings clock (2 * retries + 2))).isSome := by
  obtain ⟨retries, hretries, hend⟩ := arm_ends (d.nextExpiration (clock 0)).2
    (d.nextExpiration (clock 0)).1 (fun i => clock (i + 1)) (hclock.shift 1)
    (isNext_nextExpiration d (clock 0))
  refine ⟨retries, hretries.trans (Finset.card_le_card fun time htime => ?_), ?_⟩
  · exact (mem_expirations_next.mp htime).1
  · rw [readings_succ]
    exact hend

/-- A `schedule_wake` of the queue adds one expiration at most. -/
theorem card_expirations_schedule (q : Q.Queue) (time : UInt64) (w : W) :
    (expirations (Q.scheduleWake q time w).2).card ≤ (expirations q).card + 1 := by
  refine (Finset.card_le_card fun t ht => ?_).trans (Finset.card_insert_le time (expirations q))
  obtain ⟨e, he, heq⟩ := mem_expirations.mp ht
  cases Q.schedule_true q time w e he with
  | inl hnew =>
    rw [← heq, hnew]
    exact Finset.mem_insert_self time _
  | inr hold => exact Finset.mem_insert_of_mem (mem_expirations.mpr ⟨e, hold, heq⟩)

/-- The re-arm loops terminate, for every driver and every clock that does not go back and stays
below `u64::MAX`.

- `check_alarm` makes at most one retry for each entry.
- A `schedule_wake` that changes the queue makes at most one retry for each entry of the new
  queue. This is at most one more than the queue had entries before. A `schedule_wake` that
  changes nothing does not enter the loop.
- A retry follows a refusal with `next <= now`. Then `next` is the time of an entry, and the
  retry removes every entry with this time. -/
theorem rearm_loops_end (d : Driver Q) (clock : Nat → UInt64)
    (hmono : ∀ i j, i ≤ j → clock i ≤ clock j) (hmax : ∀ i, clock i < u64Max) :
    (∃ retries, retries ≤ (Q.entries d.queue).length ∧
      (d.checkAlarm (readings clock (2 * retries + 2))).isSome) ∧
    (∀ time w, (Q.scheduleWake d.queue time w).1 = true →
      ∃ retries, retries ≤ (Q.entries (Q.scheduleWake d.queue time w).2).length ∧
        retries ≤ (Q.entries d.queue).length + 1 ∧
        (d.scheduleWake time w (readings clock (2 * retries + 2))).isSome) ∧
    (∀ time w, (Q.scheduleWake d.queue time w).1 = false →
      (d.scheduleWake time w (readings clock 0)).isSome) ∧
    ∀ next now now', IsNext (Q.entries d.queue) next →
      (d.timer.setAlarm next now).1 = false → now ≤ now' → now < u64Max →
      next ≤ now ∧ (∃ e ∈ Q.entries d.queue, e.2 = next) ∧
        ∀ e ∈ Q.entries (d.nextExpiration now').2.queue, e.2 ≠ next := by
  have hclock : Steady clock := ⟨hmono, hmax⟩
  refine ⟨?_, fun time w hchanged => ?_, fun time w hsame => ?_,
    fun next now now' hnext hrefused hle hlt => removed_of_refused hnext hrefused hle hlt⟩
  · obtain ⟨retries, hretries, hend⟩ := rearm_ends d clock hclock
    exact ⟨retries, hretries.trans (card_expirations_le d.queue), hend⟩
  · obtain ⟨retries, hretries, hend⟩ :=
      rearm_ends { d with queue := (Q.scheduleWake d.queue time w).2 } clock hclock
    refine ⟨retries, hretries.trans (card_expirations_le _), ?_, ?_⟩
    · have hadd := card_expirations_schedule d.queue time w
      have hlen := card_expirations_le d.queue
      exact (hretries.trans hadd).trans (Nat.add_le_add_right hlen 1)
    · show (if (Q.scheduleWake d.queue time w).1 then _ else _ : Option (Driver Q)).isSome = true
      rw [if_pos hchanged]
      exact hend
  · show (if (Q.scheduleWake d.queue time w).1 then _ else _ : Option (Driver Q)).isSome = true
    rw [if_neg (by rw [hsame]; exact Bool.false_ne_true)]
    rfl

/-- The clock reaches the time 5 after its first reading. A driver with an entry at 5 and a driver
without an entry, which gets this entry, retry once at most. -/
theorem rearm_loops_end_five :
    ∃ d d' : Driver (TimerQueue.list Unit), (TimerQueue.list Unit).entries d.queue = [((), 5)] ∧
      (TimerQueue.list Unit).entries d'.queue = [] ∧
      (∃ retries, retries ≤ 1 ∧
        (d.checkAlarm (readings (fun i => if i = 0 then 4 else 5) (2 * retries + 2))).isSome) ∧
      ∃ retries, retries ≤ 1 ∧
        (d'.scheduleWake 5 ()
          (readings (fun i => if i = 0 then 4 else 5) (2 * retries + 2))).isSome := by
  have hmono : ∀ i j : Nat, i ≤ j →
      (if i = 0 then 4 else 5 : UInt64) ≤ if j = 0 then 4 else 5 := by
    intro i j hij
    by_cases hj : j = 0
    · rw [if_pos hj, if_pos (by omega)]
      exact UInt64.le_refl _
    · rw [if_neg hj]
      split <;> decide
  have hmax : ∀ i : Nat, (if i = 0 then 4 else 5 : UInt64) < u64Max := by
    intro i
    split <;> decide
  let timer : ZTimer := { initialized := false, running := none }
  let d : Driver (TimerQueue.list Unit) := ⟨[((), 5)], timer, []⟩
  let d' : Driver (TimerQueue.list Unit) := ⟨[], timer, []⟩
  obtain ⟨retries, hretries, -, hend⟩ := (rearm_loops_end d' _ hmono hmax).2.1 5 () rfl
  exact ⟨d, d', rfl, rfl, (rearm_loops_end d _ hmono hmax).1, retries, hretries, hend⟩

end ZephyrRust.TimeDriver
