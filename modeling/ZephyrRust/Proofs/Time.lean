import ZephyrRust.Time

/-!
# `ZephyrRust.Proofs.Time`: the kind and the order of timeouts

What the conversions into a `Timeout` give. `cast_of_le` and `cast_of_gt` are the two outcomes of
the cast of a tick count. `ofDuration_of_le` and `ofInstant_of_lt` say that the conversions are
exact below the ends of the range, in every build.

The ends differ. A `Duration` may have up to `i64::MAX` ticks. An `Instant` has the absolute times
`0 ..= i64::MAX - 1`, because the timeouts `i64::MIN ..= -2` stand for them. A debug build panics
outside (`debug_timeouts_round_trip`). A release build gives a timeout of another kind, or an
immediate one (`release_timeouts_keep_order`).
-/

set_option autoImplicit false

namespace ZephyrRust

namespace Time

variable {b : Build} {tick : UInt64}

/-- The cast of a tick count that an `i64` can hold. -/
theorem cast_of_le (h : (tick.toNat : Int) ≤ Int64.maxValue.toInt) :
    ∃ x, checkedCast tryInto b tick = .ok x ∧ x.toInt = tick.toNat := by
  have hcast : tryInto tick = some (Int64.ofInt tick.toNat) := if_pos h
  refine ⟨Int64.ofInt tick.toNat, ?_, ?_⟩
  · unfold checkedCast
    rw [hcast]
    split <;> rfl
  · have hmax : Int64.maxValue.toInt = 9223372036854775807 := rfl
    rw [hmax] at h
    exact Int64.toInt_ofInt_of_le (by omega) (by omega)

/-- The cast of a larger one panics, or it gives 0. -/
theorem cast_of_gt (h : Int64.maxValue.toInt < (tick.toNat : Int)) :
    checkedCast tryInto b tick = if b.debugAssertions then .error .overflow else .ok 0 := by
  have hcast : tryInto tick = none := if_neg (by omega)
  unfold checkedCast
  rw [hcast]
  rfl

theorem debugAssertNe_of_ne {x y : Int64} {p : Panic} (h : x.toInt ≠ y.toInt) :
    debugAssertNe b x y p = .ok () := by
  refine if_neg ?_
  rintro ⟨-, rfl⟩
  exact h rfl

/-- A subtraction that stays in range. -/
theorem sub_of_range {x y : Int64} (hmin : Int64.minValue.toInt ≤ x.toInt - y.toInt)
    (hmax : x.toInt - y.toInt ≤ Int64.maxValue.toInt) :
    ∃ z, sub b x y = .ok z ∧ z.toInt = x.toInt - y.toInt := by
  refine ⟨x - y, ?_, ?_⟩
  · refine if_neg ?_
    omega
  · have hle : Int64.maxValue.toInt = 9223372036854775807 := rfl
    have hge : Int64.minValue.toInt = -9223372036854775808 := rfl
    rw [Int64.toInt_sub]
    exact Int.bmod_eq_of_le (by omega) (by omega)

end Time

namespace Timeout

open Time

variable {b : Build}

/-- The timeouts below -1 are the absolute ones. -/
theorem kind_eq_absolute {t : Timeout} {n : Int} :
    t.kind = .absolute n ↔ 0 ≤ n ∧ t.ticks.toInt = -2 - n := by
  simp only [kind]
  split
  · constructor
    · intro h
      cases h
    · omega
  · split
    · constructor
      · intro h
        cases h
      · omega
    · split
      · constructor
        · intro h
          cases h
        · omega
      · constructor
        · intro h
          cases h
          omega
        · rintro ⟨-, h⟩
          rw [h]
          congr 1
          omega

/-- A `Duration` with ticks from 1 to `i64::MAX` is a relative timeout of as many ticks. -/
theorem ofDuration_of_le {d : Duration} (hpos : 0 < d.ticks.toNat)
    (hmax : (d.ticks.toNat : Int) ≤ Int64.maxValue.toInt) :
    ∃ x, ofDuration b d = .ok x ∧ x.kind = .relative d.ticks.toNat := by
  obtain ⟨ticks, hcast, hticks⟩ := cast_of_le hmax (b := b)
  refine ⟨⟨ticks⟩, ?_, kind_eq_relative.mpr ⟨by omega, hticks⟩⟩
  have hforever : debugAssertNe b ticks forever.ticks .isForever = .ok () :=
    debugAssertNe_of_ne (by rw [hticks]; show (_ : Int) ≠ -1; omega)
  have hnoWait : debugAssertNe b ticks noWait.ticks .isNoWait = .ok () :=
    debugAssertNe_of_ne (by rw [hticks]; show (_ : Int) ≠ 0; omega)
  rw [ofDuration, hcast]
  simp only [bind, Except.bind, hforever, hnoWait]
  rfl

/-- An `Instant` before `i64::MAX` is an absolute timeout at its time. A build with debug assertions
does not accept the time 0. -/
theorem ofInstant_of_lt {t : Instant} (hpos : b.debugAssertions = true → 0 < t.ticks.toNat)
    (hmax : (t.ticks.toNat : Int) < Int64.maxValue.toInt) :
    ∃ x, ofInstant b t = .ok x ∧ x.kind = .absolute t.ticks.toNat := by
  obtain ⟨ticks, hcast, hticks⟩ := cast_of_le (Int.le_of_lt hmax) (b := b)
  have hle : Int64.maxValue.toInt = 9223372036854775807 := rfl
  have hge : Int64.minValue.toInt = -9223372036854775808 := rfl
  have hforever : debugAssertNe b ticks forever.ticks .isForever = .ok () :=
    debugAssertNe_of_ne (by rw [hticks]; show (_ : Int) ≠ -1; omega)
  have hnoWait : debugAssertNe b ticks noWait.ticks .isNoWait = .ok () := by
    refine if_neg ?_
    rintro ⟨hdebug, rfl⟩
    have hzero : (0 : Int) = t.ticks.toNat := hticks
    have := hpos hdebug
    omega
  obtain ⟨start, hstart, hstart'⟩ := sub_of_range (b := b) (x := -1) (y := 1)
    (by decide) (by decide)
  have htwo : start.toInt = -2 := hstart'
  obtain ⟨z, hz, hz'⟩ := sub_of_range (b := b) (x := start) (y := ticks) (by omega) (by omega)
  refine ⟨⟨z⟩, ?_, kind_eq_absolute.mpr ⟨by omega, ?_⟩⟩
  · rw [ofInstant, hcast]
    simp only [bind, Except.bind, hforever, hnoWait, hstart, hz]
    rfl
  · show z.toInt = _
    omega

/-! ## Builds with all checks -/

/-- The assertions fail on 0 ticks. -/
theorem panics_of_zero :
    ofDuration .debug ⟨0⟩ = .error .isNoWait ∧ ofInstant .debug ⟨0⟩ = .error .isNoWait :=
  ⟨rfl, rfl⟩

/-- The cast fails above `i64::MAX`. -/
theorem panics_of_gt {tick : UInt64} (h : Int64.maxValue.toInt < (tick.toNat : Int)) :
    ofDuration .debug ⟨tick⟩ = .error .overflow ∧ ofInstant .debug ⟨tick⟩ = .error .overflow := by
  rw [ofDuration, ofInstant, cast_of_gt h]
  exact ⟨rfl, rfl⟩

/-- At `i64::MAX` the subtraction of an `Instant` overflows. -/
theorem panics_of_max : ofInstant .debug ⟨9223372036854775807⟩ = .error .subtract := rfl

/-- A `Duration` panics, or it becomes a relative timeout. -/
theorem ofDuration_debug (d : Duration) :
    if d.ticks.toNat = 0 ∨ Int64.maxValue.toInt < (d.ticks.toNat : Int) then
      ∃ p, ofDuration .debug d = .error p
    else ∃ x, ofDuration .debug d = .ok x ∧ x.kind = .relative d.ticks.toNat := by
  split
  · rename_i hout
    rcases hout with hzero | hgt
    · obtain rfl : d = ⟨0⟩ := by
        cases d
        congr
        exact UInt64.toNat_inj.mp hzero
      exact ⟨_, panics_of_zero.1⟩
    · exact ⟨_, (panics_of_gt hgt).1⟩
  · exact ofDuration_of_le (by omega) (by omega)

/-- An `Instant` panics, or it becomes an absolute timeout. -/
theorem ofInstant_debug (t : Instant) :
    if t.ticks.toNat = 0 ∨ Int64.maxValue.toInt ≤ (t.ticks.toNat : Int) then
      ∃ p, ofInstant .debug t = .error p
    else ∃ x, ofInstant .debug t = .ok x ∧ x.kind = .absolute t.ticks.toNat := by
  split
  · rename_i hout
    rcases hout with hzero | hge
    · obtain rfl : t = ⟨0⟩ := by
        cases t
        congr
        exact UInt64.toNat_inj.mp hzero
      exact ⟨_, panics_of_zero.2⟩
    · rcases Int.lt_or_eq_of_le hge with hgt | hmax
      · exact ⟨_, (panics_of_gt hgt).2⟩
      · obtain rfl : t = ⟨9223372036854775807⟩ := by
          cases t
          congr
          exact UInt64.toNat_inj.mp (Int.ofNat_inj.mp hmax.symm)
        exact ⟨_, panics_of_max⟩
  · exact ofInstant_of_lt (fun _ => by omega) (by omega)

/-- The result of a conversion that returns. -/
theorem ofDuration_eq_ok {d : Duration} {x : Timeout} (h : ofDuration .debug d = .ok x) :
    x.kind = .relative d.ticks.toNat := by
  have hcases := ofDuration_debug d
  split at hcases
  · obtain ⟨p, hp⟩ := hcases
    cases h.symm.trans hp
  · obtain ⟨y, hy, hkind⟩ := hcases
    cases h.symm.trans hy
    exact hkind

theorem ofInstant_eq_ok {t : Instant} {x : Timeout} (h : ofInstant .debug t = .ok x) :
    x.kind = .absolute t.ticks.toNat := by
  have hcases := ofInstant_debug t
  split at hcases
  · obtain ⟨p, hp⟩ := hcases
    cases h.symm.trans hp
  · obtain ⟨y, hy, hkind⟩ := hcases
    cases h.symm.trans hy
    exact hkind

/-- In a debug build the conversions panic outside of the range that a timeout can hold, and inside
they can be undone. The last `Instant` is one before the last `Duration`. -/
theorem debug_timeouts_round_trip :
    (∀ d : Duration, (∃ p, ofDuration .debug d = .error p) ↔
      d.ticks.toNat = 0 ∨ Int64.maxValue.toInt < (d.ticks.toNat : Int)) ∧
    (∀ t : Instant, (∃ p, ofInstant .debug t = .error p) ↔
      t.ticks.toNat = 0 ∨ Int64.maxValue.toInt ≤ (t.ticks.toNat : Int)) ∧
    (∀ (d : Duration) (x : Timeout), ofDuration .debug d = .ok x →
      x.kind = .relative d.ticks.toNat) ∧
    (∀ (t : Instant) (x : Timeout), ofInstant .debug t = .ok x →
      x.kind = .absolute t.ticks.toNat) ∧
    (∀ (d : Duration) (t : Instant) (x y : Timeout), ofDuration .debug d = .ok x →
      ofInstant .debug t = .ok y →
      x ≠ y ∧ x ≠ forever ∧ x ≠ noWait ∧ y ≠ forever ∧ y ≠ noWait ∧ forever ≠ noWait) := by
  refine ⟨fun d => ?_, fun t => ?_, fun d x => ofDuration_eq_ok, fun t x => ofInstant_eq_ok,
    fun d t x y hx hy => ?_⟩
  · have hcases := ofDuration_debug d
    constructor
    · rintro ⟨p, hp⟩
      by_contra hin
      rw [if_neg hin] at hcases
      obtain ⟨x, hx, -⟩ := hcases
      cases hp.symm.trans hx
    · intro hout
      rwa [if_pos hout] at hcases
  · have hcases := ofInstant_debug t
    constructor
    · rintro ⟨p, hp⟩
      by_contra hin
      rw [if_neg hin] at hcases
      obtain ⟨x, hx, -⟩ := hcases
      cases hp.symm.trans hx
    · intro hout
      rwa [if_pos hout] at hcases
  · -- The kinds are all different.
    have hxk := ofDuration_eq_ok hx
    have hyk := ofInstant_eq_ok hy
    refine ⟨?_, ?_, ?_, ?_, ?_, by decide⟩
    all_goals rintro rfl
    · cases hxk.symm.trans hyk
    · cases hxk
    · cases hxk
    · cases hyk
    · cases hyk

/-- The largest `i64` is no tick count of an `Instant`. -/
theorem debug_instant_panics_at_max :
    (∃ p, ofInstant .debug ⟨9223372036854775807⟩ = .error p) ∧
      ¬((9223372036854775807 : UInt64).toNat = 0 ∨
        Int64.maxValue.toInt < ((9223372036854775807 : UInt64).toNat : Int)) :=
  ⟨⟨.subtract, rfl⟩, by decide⟩

/-! ## Builds without checks -/

/-- The conversions of two `Duration`s are relative timeouts in their order. -/
def DurationsKept (d₁ d₂ : Duration) : Prop :=
  ∃ n₁ n₂, (ofDuration .release d₁).map kind = .ok (.relative n₁) ∧
    (ofDuration .release d₂).map kind = .ok (.relative n₂) ∧ n₁ ≤ n₂

/-- The conversions of two `Instant`s are absolute timeouts in their order, and only the time 0 is
an immediate one. -/
def InstantsKept (t₁ t₂ : Instant) : Prop :=
  ∃ n₁ n₂, (ofInstant .release t₁).map kind = .ok (.absolute n₁) ∧
    (ofInstant .release t₂).map kind = .ok (.absolute n₂) ∧ n₁ ≤ n₂ ∧
    (0 < t₁.ticks.toNat → 0 < n₁) ∧ (0 < t₂.ticks.toNat → 0 < n₂)

/-- A tick count above `i64::MAX` becomes 0, which does not wait, or an immediate deadline. -/
theorem release_of_gt {tick : UInt64} (h : Int64.maxValue.toInt < (tick.toNat : Int)) :
    (ofDuration .release ⟨tick⟩).map kind = .ok .noWait ∧
      (ofInstant .release ⟨tick⟩).map kind = .ok (.absolute 0) := by
  rw [ofDuration, ofInstant, cast_of_gt h]
  exact ⟨rfl, rfl⟩

/-- The `Instant` at `i64::MAX` wraps around to a delay. -/
theorem release_of_max :
    (ofInstant .release ⟨9223372036854775807⟩).map kind = .ok (.relative 9223372036854775807) :=
  rfl

/-- In a release build kind and order are kept as long as the larger tick count is in range. -/
theorem release_timeouts_keep_order {d₁ d₂ : Duration} {t₁ t₂ : Instant}
    (hd₁ : 1 ≤ d₁.ticks.toNat) (hd : d₁.ticks.toNat ≤ d₂.ticks.toNat)
    (ht : t₁.ticks.toNat ≤ t₂.ticks.toNat) :
    (DurationsKept d₁ d₂ ↔ (d₂.ticks.toNat : Int) ≤ Int64.maxValue.toInt) ∧
      (InstantsKept t₁ t₂ ↔ (t₂.ticks.toNat : Int) < Int64.maxValue.toInt) := by
  refine ⟨⟨fun h => ?_, fun hmax => ?_⟩, ⟨fun h => ?_, fun hmax => ?_⟩⟩
  · by_contra hgt
    obtain ⟨n₁, n₂, -, h₂, -⟩ := h
    rw [(release_of_gt (by omega : Int64.maxValue.toInt < _)).1] at h₂
    cases h₂
  · obtain ⟨x₁, hx₁, hk₁⟩ := ofDuration_of_le (b := .release) (d := d₁) hd₁ (by omega)
    obtain ⟨x₂, hx₂, hk₂⟩ := ofDuration_of_le (b := .release) (d := d₂) (by omega) hmax
    refine ⟨_, _, ?_, ?_, Int.ofNat_le.mpr hd⟩
    · rw [hx₁, ← hk₁]
      rfl
    · rw [hx₂, ← hk₂]
      rfl
  · by_contra hge
    obtain ⟨n₁, n₂, -, h₂, -, -, hfar⟩ := h
    rcases Int.lt_or_eq_of_le (Int.not_lt.mp hge) with hgt | hmax
    · rw [(release_of_gt hgt).2] at h₂
      cases h₂
      have hpos := hfar (by have : (0 : Int) < Int64.maxValue.toInt := by decide
                            omega)
      exact absurd hpos (by decide)
    · obtain rfl : t₂ = ⟨9223372036854775807⟩ := by
        cases t₂
        congr
        exact UInt64.toNat_inj.mp (Int.ofNat_inj.mp hmax.symm)
      rw [release_of_max] at h₂
      cases h₂
  · obtain ⟨x₁, hx₁, hk₁⟩ := ofInstant_of_lt (b := .release) (t := t₁) (by simp [Build.release])
      (by omega)
    obtain ⟨x₂, hx₂, hk₂⟩ := ofInstant_of_lt (b := .release) (t := t₂) (by simp [Build.release])
      hmax
    refine ⟨_, _, ?_, ?_, Int.ofNat_le.mpr ht, fun h => Int.natCast_pos.mpr h,
      fun h => Int.natCast_pos.mpr h⟩
    · rw [hx₁, ← hk₁]
      rfl
    · rw [hx₂, ← hk₂]
      rfl

theorem release_timeouts_keep_order_small :
    DurationsKept ⟨5⟩ ⟨7⟩ ∧ InstantsKept ⟨0⟩ ⟨9223372036854775806⟩ := by
  have h := @release_timeouts_keep_order ⟨5⟩ ⟨7⟩ ⟨0⟩ ⟨9223372036854775806⟩ (by decide) (by decide)
    (by decide)
  exact ⟨h.1.mpr (by decide), h.2.mpr (by decide)⟩

/-- A `Duration` of 2^63 ticks does not wait at all, and the `Instant` at `i64::MAX` is a delay. -/
theorem release_far_future_changes_kind :
    ¬DurationsKept ⟨1⟩ ⟨9223372036854775808⟩ ∧ ¬InstantsKept ⟨1⟩ ⟨9223372036854775807⟩ := by
  constructor
  · rintro ⟨n₁, n₂, -, h₂, -⟩
    cases h₂
  · rintro ⟨n₁, n₂, -, h₂, -⟩
    cases h₂

end Timeout

end ZephyrRust
