import Mathlib.Algebra.Order.Ring.Int
import ZephyrRust.TimeDriver

/-!
# `ZephyrRust.Proofs.TimeDriver`: the alarms of the embassy time driver

Both calls of the driver end in the same loop, which re-arms the timer. `Rearmed` is its
specification: the entries that remain are those after the last clock value that was read,
and the timer was started for the least of them.

The timer gets the distance to that expiration as a `k_timeout_t`. `alarm_genuine_iff` says
when the kernel reads it as a delay. It is not a delay when nothing remains in the queue:
`next_expiration` is then `u64::MAX`, and the cast to `i64` turns the distance to it into a
negative number. `pending_wake_has_alarm` says that a pending expiration always has its
alarm.
-/

set_option autoImplicit false

namespace ZephyrRust.TimeDriver

variable {W : Type} {Q : TimerQueue W}

/-- `set_alarm` starts the timer exactly when `next` is in the future. -/
theorem setAlarm_eq_true {timer : ZTimer} {next now : UInt64} :
    (timer.setAlarm next now).1 = true ↔ now < next := by
  unfold ZTimer.setAlarm
  split
  · simp_all [UInt64.not_lt]
  · simp_all [UInt64.not_le]

/-- The timer that `set_alarm(next, now)` starts. -/
def startedFor (next now : UInt64) : ZTimer where
  initialized := true
  running := some ⟨alarmDelta next now, .forever, next, now⟩

/-- The timer after a `set_alarm` that started it. -/
theorem setAlarm_running {timer : ZTimer} {next now : UInt64} (h : now < next) :
    (timer.setAlarm next now).2 = startedFor next now := by
  unfold ZTimer.setAlarm startedFor
  rw [if_neg (UInt64.not_le.mpr h)]
  cases hi : timer.initialized <;> simp [hi]

/-- `next` is the least expiration of the entries, or `u64::MAX` when there are none. -/
def IsNext (entries : List (W × UInt64)) (next : UInt64) : Prop :=
  (∀ e ∈ entries, next ≤ e.2) ∧
    ((∃ e ∈ entries, e.2 = next) ∨ entries = [] ∧ next = u64Max)

theorem isNext_nextExpiration (d : Driver Q) (now : UInt64) :
    IsNext (Q.entries (d.nextExpiration now).2.queue) (d.nextExpiration now).1 :=
  ⟨Q.next_le d.queue now, Q.next_mem d.queue now⟩

/-- What the records of the `next_expiration` calls say: a call woke every task whose
expiration had passed. -/
def Read.Woken (r : Read W) : Prop :=
  ∀ e ∈ r.before, e.2 ≤ r.now → e.1 ∈ r.woken

/-- The outcome of a complete re-arming of the timer, where `last` is the last clock value
that was read. -/
structure Rearmed (d d' : Driver Q) (last : UInt64) : Prop where
  /-- The entries that remain are those after `last`. -/
  entries : ∀ e, e ∈ Q.entries d'.queue ↔ e ∈ Q.entries d.queue ∧ last < e.2
  /-- The timer was started for the least of them. -/
  start : ∃ next, last < next ∧ IsNext (Q.entries d'.queue) next ∧
    d'.timer = startedFor next last
  /-- The calls of `next_expiration` on the way read the clock at or before `last`. -/
  reads : ∀ r ∈ d'.reads, r ∈ d.reads ∨ r.now ≤ last ∧ r.Woken

/-- A re-arming may begin with a call of `next_expiration`. -/
theorem Rearmed.of_next {d d' : Driver Q} {now last : UInt64} (hnow : now ≤ last)
    (h : Rearmed (d.nextExpiration now).2 d' last) : Rearmed d d' last := by
  refine ⟨fun e => ?_, h.start, fun r hr => ?_⟩
  · rw [h.entries]
    show e ∈ Q.entries (Q.nextExpiration d.queue now).2.2 ∧ last < e.2 ↔ _
    rw [Q.mem_next]
    constructor
    · rintro ⟨⟨he, -⟩, hlt⟩
      exact ⟨he, hlt⟩
    · rintro ⟨he, hlt⟩
      exact ⟨⟨he, UInt64.lt_of_le_of_lt hnow hlt⟩, hlt⟩
  · rcases h.reads r hr with hr | hr
    · rcases List.mem_append.mp hr with hr | hr
      · exact Or.inl hr
      · cases List.mem_singleton.mp hr
        exact Or.inr ⟨hnow, fun e he hle => (Q.woken_next _ _ _).mpr ⟨e.2, he, hle⟩⟩
    · exact Or.inr hr

/-- The loop of the driver ends with the timer started for the least expiration. -/
theorem rearmed_of_arm (d : Driver Q) (next : UInt64) (clock : List UInt64) (d' : Driver Q)
    (hnext : IsNext (Q.entries d.queue) next) (hclock : clock.Pairwise (· ≤ ·))
    (h : d.arm next clock = some d') :
    ∃ last, clock.getLast? = some last ∧ Rearmed d d' last := by
  fun_induction Driver.arm d next clock with
  | case1 => cases h
  | case2 d next now r halarm =>
    cases h
    have hlt := setAlarm_eq_true.mp halarm
    refine ⟨now, rfl, fun e => ?_, ⟨next, hlt, hnext, setAlarm_running hlt⟩, fun r hr => ?_⟩
    · -- No entry is before `next`, so none is removed.
      exact ⟨fun he => ⟨he, UInt64.lt_of_lt_of_le hlt (hnext.1 e he)⟩, And.left⟩
    · exact Or.inl hr
  | case3 => cases h
  | case4 => cases h
  | case5 d next now r halarm now' rest n ih =>
    have hclock' := (List.pairwise_cons.mp hclock).2
    obtain ⟨hle, hrest⟩ := List.pairwise_cons.mp hclock'
    obtain ⟨last, hlast, hre⟩ := ih (isNext_nextExpiration d now') hrest h
    refine ⟨last, ?_, hre.of_next (hle last (List.mem_of_getLast? hlast))⟩
    rw [List.getLast?_cons_cons, List.getLast?_cons, hlast]
    rfl

/-- A complete re-arming. -/
theorem rearmed_of_rearm {d d' : Driver Q} {clock : List UInt64}
    (hclock : clock.Pairwise (· ≤ ·)) (h : d.rearm clock = some d') :
    ∃ last, clock.getLast? = some last ∧ Rearmed d d' last := by
  cases clock with
  | nil => cases h
  | cons now rest =>
    obtain ⟨hle, hrest⟩ := List.pairwise_cons.mp hclock
    obtain ⟨last, hlast, hre⟩ := rearmed_of_arm _ _ rest d' (isNext_nextExpiration d now) hrest h
    refine ⟨last, ?_, hre.of_next (hle last (List.mem_of_getLast? hlast))⟩
    rw [List.getLast?_cons, hlast]
    rfl

/-! ## The delay that the kernel gets -/

/-- The kernel gets a genuine delay: the sum does not overflow, and it is read as a relative
timeout of at least `next - now` ticks, up to `i64::MAX`. -/
def Start.Genuine (r : Start) : Prop :=
  r.next.toNat - r.now.toNat + 1 < 2 ^ 64 ∧
  ∃ n, r.delta.kind = .relative n ∧ 1 ≤ n ∧ n ≤ 2 ^ 63 - 1 ∧
    (r.next.toNat : Int) - r.now.toNat ≤ n

/-- The number that the kernel gets, as a signed 64-bit value. -/
theorem alarmDelta_toInt {next now : UInt64} (h : now < next) :
    (alarmDelta next now).ticks.toInt =
      Int.bmod ((next.toNat - now.toNat + 1 : Nat) : Int) (2 ^ 64) := by
  show (next - now + 1).toBitVec.toInt = _
  rw [BitVec.toInt_eq_toNat_bmod]
  show Int.bmod ((next - now + 1).toNat : Int) (2 ^ 64) = _
  rw [UInt64.toNat_add, UInt64.toNat_sub_of_le _ _ (UInt64.le_of_lt h)]
  rw [Int.natCast_emod, Int.emod_bmod]
  rfl

/-- `set_alarm` hands over a genuine delay exactly up to a distance of `i64::MAX - 1`. -/
theorem genuine_iff {r : Start} (h : r.now < r.next) (hr : r.delta = alarmDelta r.next r.now) :
    r.Genuine ↔ r.next.toNat - r.now.toNat ≤ 2 ^ 63 - 2 := by
  have hlt := UInt64.lt_iff_toNat_lt.mp h
  have hmax := r.next.toNat_lt
  have hint := alarmDelta_toInt h
  simp only [Start.Genuine, hr, Timeout.kind_eq_relative, hint, Int.bmod_def]
  constructor
  · rintro ⟨-, n, ⟨hpos, hn⟩, -, hle, hge⟩
    omega
  · intro hd
    refine ⟨by omega, _, ⟨?_, rfl⟩, ?_, ?_, ?_⟩ <;> omega

/-- Some entry expires after `now` and at most `i64::MAX - 1` ticks after it. The other case
is a clock beyond `i64::MAX`, with nothing to expire after it: then `u64::MAX` is that near. -/
def Near (entries : List (W × UInt64)) (now : UInt64) : Prop :=
  (∃ e ∈ entries, now < e.2 ∧ e.2.toNat - now.toNat ≤ 2 ^ 63 - 2) ∨
    (∀ e ∈ entries, e.2 ≤ now) ∧ 2 ^ 63 < now.toNat

/-- The delay of a re-arming is genuine exactly when an entry is near. -/
theorem Rearmed.genuine_iff_near {d d' : Driver Q} {last : UInt64} (h : Rearmed d d' last) :
    ∃ r, d'.timer.running = some r ∧ r.now < r.next ∧
      (r.Genuine ↔ Near (Q.entries d.queue) last) := by
  obtain ⟨next, hlt, ⟨hle, hmem⟩, htimer⟩ := h.start
  refine ⟨_, by rw [htimer]; rfl, hlt, ?_⟩
  rw [genuine_iff hlt rfl]
  show next.toNat - last.toNat ≤ 2 ^ 63 - 2 ↔ _
  constructor
  · intro hd
    -- The alarm is for an entry, or for `u64::MAX` because no entry is left.
    rcases hmem with ⟨e, he, rfl⟩ | ⟨hnil, rfl⟩
    · exact Or.inl ⟨e, ((h.entries e).mp he).1, hlt, hd⟩
    · refine Or.inr ⟨fun e he => ?_, ?_⟩
      · by_contra hnot
        have := (h.entries e).mpr ⟨he, UInt64.not_le.mp hnot⟩
        simp [hnil] at this
      · have hmax : u64Max.toNat = 2 ^ 64 - 1 := rfl
        omega
  · rintro (⟨e, he, hlt', hd⟩ | ⟨hpast, hbig⟩)
    · have := UInt64.le_iff_toNat_le.mp (hle e ((h.entries e).mpr ⟨he, hlt'⟩))
      omega
    · have := next.toNat_lt
      omega

/-- The delay that the driver hands to the kernel. Every call that re-arms the timer reaches
`k_timer_start`. It hands over a genuine delay if and only if an expiration that is pending
in the call is near the last clock value that the call reads. -/
theorem alarm_genuine_iff {d d' : Driver Q} {clock : List UInt64}
    (hclock : clock.Pairwise (· ≤ ·)) :
    (d.checkAlarm clock = some d' → ∃ last r, clock.getLast? = some last ∧
      d'.timer.running = some r ∧ r.now < r.next ∧
      (r.Genuine ↔ Near (Q.entries d.queue) last)) ∧
    ∀ time w, (Q.scheduleWake d.queue time w).1 = true →
      d.scheduleWake time w clock = some d' → ∃ last r, clock.getLast? = some last ∧
        d'.timer.running = some r ∧ r.now < r.next ∧
        (r.Genuine ↔ Near (Q.entries (Q.scheduleWake d.queue time w).2) last) := by
  constructor
  · intro h
    obtain ⟨last, hlast, hre⟩ := rearmed_of_rearm hclock h
    obtain ⟨r, hr⟩ := hre.genuine_iff_near
    exact ⟨last, r, hlast, hr⟩
  · intro time w hchanged h
    simp only [Driver.scheduleWake, hchanged, if_true] at h
    obtain ⟨last, hlast, hre⟩ := rearmed_of_rearm hclock h
    obtain ⟨r, hr⟩ := hre.genuine_iff_near
    exact ⟨last, r, hlast, hr⟩

/-- A driver with one entry at 5, at the clock value 2: the delay is genuine. -/
theorem alarm_genuine_iff_pending :
    ∃ (d d' : Driver (TimerQueue.list Unit)) (r : Start),
      d.checkAlarm [2, 2] = some d' ∧ d'.timer.running = some r ∧ r.Genuine := by
  let d : Driver (TimerQueue.list Unit) :=
    { queue := [((), 5)], timer := { initialized := false, running := none }, reads := [] }
  obtain ⟨d', hd'⟩ : ∃ d', d.checkAlarm [2, 2] = some d' := ⟨_, rfl⟩
  obtain ⟨last, r, hlast, hrun, -, hiff⟩ := (alarm_genuine_iff (by decide)).1 hd'
  cases hlast
  refine ⟨d, d', r, hd', hrun, hiff.mpr (Or.inl ⟨((), 5), List.mem_cons_self, ?_⟩)⟩
  decide

/-- A timer for the time 5 expires at the time 6. No entry is left, so `set_alarm` computes
the delay to `u64::MAX`. The kernel reads it as the absolute time 4, which has passed, and
the timer fires again at once. -/
theorem check_alarm_empty_fires_again :
    ∃ s, (driver (TimerQueue.list Unit)).Reachable s ∧ ∃ r,
      s.driver.timer.running = some r ∧ r.next = u64Max ∧ r.now = 6 ∧
      r.delta.kind = .absolute 4 ∧ ¬r.Genuine := by
  let r : Start := { delta := ⟨-6⟩, period := .forever, next := u64Max, now := 6 }
  obtain ⟨s, hs, hr⟩ := (driver (TimerQueue.list Unit)).reachable_of_exec
    [.scheduleWake 5 () [0, 0], .timerTick [6, 6]]
    (fun s => decide (s.driver.timer.running = some r)) rfl
  refine ⟨s, hs, r, of_decide_eq_true hr, rfl, rfl, rfl, ?_⟩
  rintro ⟨-, n, hn, -⟩
  cases hn

/-! ## Runs of the driver -/

/-- `IsNext` depends on the members of the list only. -/
theorem IsNext.congr {l l' : List (W × UInt64)} {next : UInt64} (h : IsNext l next)
    (hmem : ∀ e, e ∈ l' ↔ e ∈ l) : IsNext l' next := by
  refine ⟨fun e he => h.1 e ((hmem e).mp he), ?_⟩
  rcases h.2 with ⟨e, he, hn⟩ | ⟨hnil, hn⟩
  · exact Or.inl ⟨e, (hmem e).mpr he, hn⟩
  · refine Or.inr ⟨List.eq_nil_iff_forall_not_mem.mpr fun e he => ?_, hn⟩
    simpa [hnil] using (hmem e).mp he

/-- The times that are requested are below `2 ^ 62`. -/
def Act.small : Act W → Prop
  | .scheduleWake time _ _ => time.toNat < 2 ^ 62
  | .timerTick _ => True

/-- The timer runs for the least pending expiration. -/
def Alarmed (d : Driver Q) : Prop :=
  ∃ next now, now < next ∧ IsNext (Q.entries d.queue) next ∧ d.timer = startedFor next now

/-- The driver between calls. -/
structure Inv (s : St Q) : Prop where
  alarmed : Q.entries s.driver.queue ≠ [] → Alarmed s.driver
  small : ∀ e ∈ Q.entries s.driver.queue, e.2.toNat < 2 ^ 62
  reads : ∀ r ∈ s.driver.reads,
    r.now ≤ s.clock ∧ r.Woken ∧ ∀ e ∈ Q.entries s.driver.queue, r.now < e.2

/-- A call that re-arms the timer keeps the invariant. `d` is the driver when the re-arming
begins. -/
theorem Inv.of_rearmed {s : St Q} {d d' : Driver Q} {last : UInt64} (h : Inv s)
    (hre : Rearmed d d' last) (hlast : s.clock ≤ last)
    (hsmall : ∀ e ∈ Q.entries d.queue, e.2.toNat < 2 ^ 62) (hreads : d.reads = s.driver.reads) :
    Inv { driver := d', clock := last } := by
  refine ⟨fun _ => ?_, fun e he => hsmall e ((hre.entries e).mp he).1, fun r hr => ?_⟩
  · obtain ⟨next, hlt, hnext, htimer⟩ := hre.start
    exact ⟨next, last, hlt, hnext, htimer⟩
  · -- What remains is after `last`, and no clock value was read after `last`.
    have hle : r.now ≤ last ∧ r.Woken := by
      rcases hre.reads r hr with hr | hr
      · obtain ⟨hc, hw, -⟩ := h.reads r (hreads ▸ hr)
        exact ⟨UInt64.le_trans hc hlast, hw⟩
      · exact hr
    exact ⟨hle.1, hle.2, fun e he => UInt64.lt_of_le_of_lt hle.1 ((hre.entries e).mp he).2⟩

/-- A clock that never goes back, read at least once. -/
theorem getLastD_of_pairwise {c last : UInt64} {clock : List UInt64}
    (hclock : (c :: clock).Pairwise (· ≤ ·)) (hlast : clock.getLast? = some last) :
    c ≤ last ∧ clock.getLastD c = last := by
  refine ⟨(List.pairwise_cons.mp hclock).1 last (List.mem_of_getLast? hlast), ?_⟩
  rw [List.getLastD_eq_getLast?, hlast, Option.getD_some]

/-- Every call keeps the invariant. -/
theorem Inv.step {s s' : St Q} {a : Act W} (h : Inv s) (ha : a.small)
    (hs : (driver Q).step s a = some s') : Inv s' := by
  obtain ⟨hclock, hs⟩ := Option.ite_none_right_eq_some.mp hs
  obtain ⟨d', hd', rfl⟩ := Option.map_eq_some_iff.mp hs
  have hrest := (List.pairwise_cons.mp hclock).2
  cases a with
  | scheduleWake time w clock =>
    -- The new expiration is small by the condition on the run.
    have hsmall : ∀ e ∈ Q.entries (Q.scheduleWake s.driver.queue time w).2,
        e.2.toNat < 2 ^ 62 := by
      intro e he
      rcases Q.schedule_true _ _ _ e he with rfl | he
      · exact ha
      · exact h.small e he
    simp only [Driver.scheduleWake] at hd'
    split at hd'
    · obtain ⟨last, hlast, hre⟩ := rearmed_of_rearm hrest hd'
      obtain ⟨hle, hD⟩ := getLastD_of_pairwise hclock hlast
      rw [hD]
      exact h.of_rearmed hre hle hsmall rfl
    · rename_i hchanged
      split at hd'
      · cases hd'
        -- Nothing was added, and the clock was not read.
        have hmem := Q.schedule_false _ time w (Bool.eq_false_iff.mpr hchanged)
        refine ⟨fun hne => ?_, hsmall, fun r hr => ?_⟩
        · have hne' : Q.entries s.driver.queue ≠ [] := fun hnil => hne
            (List.eq_nil_iff_forall_not_mem.mpr fun e he => by simpa [hnil] using (hmem e).mp he)
          obtain ⟨next, now, hlt, hnext, htimer⟩ := h.alarmed hne'
          exact ⟨next, now, hlt, hnext.congr hmem, htimer⟩
        · obtain ⟨hc, hw, hlt⟩ := h.reads r hr
          exact ⟨hc, hw, fun e he => hlt e ((hmem e).mp he)⟩
      · cases hd'
  | timerTick clock =>
    simp only [Driver.timerTick] at hd'
    split at hd'
    · cases hd'
    · obtain ⟨last, hlast, hre⟩ := rearmed_of_rearm hrest hd'
      obtain ⟨hle, hD⟩ := getLastD_of_pairwise hclock hlast
      rw [hD]
      exact h.of_rearmed hre hle h.small rfl

/-- At the start nothing is pending. -/
theorem inv_init : Inv (driver Q).init := by
  constructor <;> simp [driver, Q.entries_new]

/-- No pending wake-up is left without an alarm, in every state between the driver's calls,
for every run under a clock that never goes back and with requests below `2 ^ 62`.

When something is pending, the timer runs and was last started for the least pending
expiration, as a relative delay of `n` ticks. `k_timer_start` takes one tick off, so the timer
fires `n - 1` ticks after the clock value `now` at the earliest, which is not before that
expiration. Every `next_expiration` call woke all tasks that had expired at the clock value
it read, and none of the pending expirations is at or before such a clock value. -/
theorem pending_wake_has_alarm {s : St Q}
    (h : (driver Q).ReachableBy (fun _ a => a.small) s) :
    (Q.entries s.driver.queue ≠ [] → s.driver.timer.initialized = true ∧
      ∃ r, s.driver.timer.running = some r ∧ r.period = .forever ∧
        (∃ e ∈ Q.entries s.driver.queue, e.2 = r.next) ∧
        (∀ e ∈ Q.entries s.driver.queue, r.next ≤ e.2) ∧
        ∃ n, r.delta.kind = .relative n ∧ (r.next.toNat : Int) ≤ r.now.toNat + (n - 1)) ∧
    ∀ r ∈ s.driver.reads, r.now ≤ s.clock ∧
      (∀ e ∈ r.before, e.2 ≤ r.now → e.1 ∈ r.woken) ∧
      ∀ e ∈ Q.entries s.driver.queue, r.now < e.2 := by
  have hi := h.invariant inv_init fun s a s' hi ha hs => hi.step ha hs
  refine ⟨fun hne => ?_, hi.reads⟩
  obtain ⟨next, now, hlt, ⟨hle, hmem⟩, htimer⟩ := hi.alarmed hne
  obtain ⟨e, he, rfl⟩ : ∃ e ∈ Q.entries s.driver.queue, e.2 = next := by
    rcases hmem with he | ⟨hnil, -⟩
    · exact he
    · exact absurd hnil hne
  refine ⟨by rw [htimer]; rfl, _, by rw [htimer]; rfl, rfl, ⟨e, he, rfl⟩, hle, ?_⟩
  -- The expiration is below `2 ^ 62`, so the delay is genuine.
  have hsmall := hi.small e he
  have hlt' := UInt64.lt_iff_toNat_lt.mp hlt
  refine ⟨e.2.toNat - now.toNat + 1, ?_, ?_⟩
  · rw [Timeout.kind_eq_relative, alarmDelta_toInt hlt, Int.bmod_def]
    omega
  · show (e.2.toNat : Int) ≤ now.toNat + _
    omega

/-- Three tasks request the times 9, 5 and 20. The clock passes 5 while the driver handles
the third request, and the timer is started for 9. -/
theorem pending_wake_has_alarm_nine :
    ∃ s, (driver (TimerQueue.list (Fin 3))).ReachableBy (fun _ a => a.small) s ∧
      (TimerQueue.list (Fin 3)).entries s.driver.queue = [(2, 20), (0, 9)] ∧
      ∃ r, s.driver.timer.running = some r ∧ r.next = 9 ∧ ∃ n, r.delta.kind = .relative n ∧
        (r.next.toNat : Int) ≤ r.now.toNat + (n - 1) := by
  obtain ⟨s, hs, hq⟩ := (driver (TimerQueue.list (Fin 3))).reachableBy_of_exec
    (P := fun _ a => a.small)
    [.scheduleWake 9 0 [0, 1], .scheduleWake 5 1 [2, 2], .scheduleWake 20 2 [4, 5, 6, 7]]
    (fun s => decide ((TimerQueue.list (Fin 3)).entries s.driver.queue = [(2, 20), (0, 9)]))
    (by simp [Act.small]) rfl
  replace hq := of_decide_eq_true hq
  obtain ⟨-, r, hrun, -, ⟨e, he, hnext⟩, hle, hdelta⟩ :=
    (pending_wake_has_alarm hs).1 (by simp [hq])
  refine ⟨s, hs, hq, r, hrun, ?_, hdelta⟩
  simp only [hq, List.mem_cons, List.not_mem_nil, or_false] at he hle
  rcases he with rfl | rfl
  · have := hle (0, 9) (Or.inr rfl)
    rw [← hnext] at this
    exact absurd this (by decide)
  · exact hnext.symm

end ZephyrRust.TimeDriver
