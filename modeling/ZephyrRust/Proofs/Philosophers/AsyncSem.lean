import Mathlib.Data.Fintype.Card
import ZephyrRust.Lib.LockOrder
import ZephyrRust.Lib.Progress
import ZephyrRust.Philosophers.AsyncSem
import ZephyrRust.Proofs.Philosophers

/-!
# `ZephyrRust.Proofs.Philosophers.AsyncSem`: the dinner ends

Whatever the order of the polls is, the tasks come to an end: each philosopher has eaten `EAT_COUNT`
times, all forks are free and `phil` has sent the statistics (`Over`). On the way no two
philosophers have the same fork, and no `unwrap` fails.

`Inv` has the balance of each semaphore: the permits of a fork and the philosophers who have it are
one together, and `DONE_SEM` has a permit for each philosopher who has finished. Every step lowers
`work`. A philosopher who cannot go on is in the queue of a fork that somebody has, and the forks
are taken in order, so the argument of `Lib.LockOrder` says that somebody can go on.
-/

set_option autoImplicit false

namespace ZephyrRust.Philosophers.AsyncSem

open ZephyrRust.Lib (System LockOrder sum_of_eq_off)

/-! ## The places -/

/-- The forks that philosopher `n` has. -/
def held (n : Phil) : Place → List Fork
  | .acquireSecond => [(forks n).1]
  | .eating | .releaseSecond => [(forks n).1, (forks n).2]
  | .releaseFirst => [(forks n).1]
  | _ => []

/-- The fork that philosopher `n` acquires. -/
def wants (n : Phil) : Place → Option Fork
  | .acquireFirst => some (forks n).1
  | .acquireSecond => some (forks n).2
  | _ => none

/-- The fork that philosopher `n` gives back. -/
def returns (n : Phil) : Place → Option Fork
  | .releaseSecond => some (forks n).2
  | .releaseFirst => some (forks n).1
  | _ => none

/-- The place after an acquire or a release. -/
def Place.next : Place → Place
  | .acquireFirst => .acquireSecond
  | .acquireSecond => .eating
  | .releaseSecond => .releaseFirst
  | .releaseFirst => .thinking
  | p => p

variable {n m : Phil} {p : Place} {i j : Fork} {s s' : St}

theorem held_of_wants (h : wants n p = some i) : held n p.next = held n p ++ [i] := by
  cases p <;> cases h <;> rfl

theorem held_of_returns (h : returns n p = some i) : held n p = held n p.next ++ [i] := by
  cases p <;> cases h <;> rfl

theorem wants_of_returns (h : returns n p = some i) : wants n p = none := by
  cases p <;> cases h <;> rfl

/-- The steps of philosopher `n`. -/
inductive Move (s : St) (n : Phil) : St → Prop
  | take {i : Fork} (hwants : wants n (s.task n).place = some i)
      (hpermits : 1 ≤ (s.forks i).permits)
      (hfront : (s.forks i).waiters.head? = some n ∨ (s.forks i).waiters = []) :
      Move s n ((s.setFork i ⟨(s.forks i).permits - 1, (s.forks i).waiters.tail⟩).goto n
        (s.task n).place.next)
  | wait {i : Fork} (hwants : wants n (s.task n).place = some i) (hnot : n ∉ (s.forks i).waiters) :
      Move s n (s.setFork i ⟨(s.forks i).permits, (s.forks i).waiters ++ [n]⟩)
  | full {i : Fork} (hwants : wants n (s.task n).place = some i) (hnot : n ∉ (s.forks i).waiters)
      (hlen : numPhil ≤ (s.forks i).waiters.length) : Move s n (s.goto n .panicked)
  | eat {time : UInt64} (hplace : (s.task n).place = .eating) :
      Move s n ({ s with stats := s.stats.recordEat n time }.goto n .releaseSecond)
  | release {i : Fork} (hreturns : returns n (s.task n).place = some i) :
      Move s n (s.release n i (s.task n).place.next)
  | think {time : UInt64} {p : Place} (hplace : (s.task n).place = .thinking)
      (hp : p = if (s.task n).round + 1 < eatCount then .acquireFirst else .releaseDone) :
      Move s n
        { s with
          stats := s.stats.recordThink n time
          task := Function.update s.task n ⟨(s.task n).round + 1, p⟩ }
  | finish (hplace : (s.task n).place = .releaseDone) :
      Move s n ({ s with done := s.done.release 1 }.goto n .finished)

/-- A poll of a fork that philosopher `n` acquires. -/
theorem Move.of_acquire (hwants : wants n (s.task n).place = some i)
    (hs : s.acquire n i (s.task n).place.next = some s') : Move s n s' := by
  unfold St.acquire FairSemaphore.pollAcquire at hs
  by_cases hmem : n ∈ (s.forks i).waiters
  · -- He has a place in the queue, and goes on from the front.
    rw [if_pos hmem] at hs
    by_cases hready : (s.forks i).waiters.head? = some n ∧ 1 ≤ (s.forks i).permits
    · rw [if_pos hready] at hs
      cases hs
      exact .take hwants hready.2 (.inl hready.1)
    · rw [if_neg hready] at hs
      cases hs
  · -- His first poll: he goes on when nobody waits.
    rw [if_neg hmem] at hs
    by_cases hready : (s.forks i).waiters = [] ∧ 1 ≤ (s.forks i).permits
    · rw [if_pos hready] at hs
      cases hs
      have hm := Move.take hwants hready.2 (.inr hready.1)
      rw [hready.1, List.tail_nil, ← hready.1] at hm
      exact hm
    · rw [if_neg hready] at hs
      by_cases hlen : (s.forks i).waiters.length < numPhil
      · rw [if_pos hlen] at hs
        cases hs
        exact .wait hwants hmem
      · rw [if_neg hlen] at hs
        cases hs
        exact .full hwants hmem (Nat.le_of_not_lt hlen)

theorem Move.of_onePhil {time : UInt64} (hs : s.onePhil n time = some s') : Move s n s' := by
  unfold St.onePhil at hs
  cases hp : (s.task n).place with
  | acquireFirst | acquireSecond =>
    simp only [hp] at hs
    exact .of_acquire (by rw [hp, wants]) (by rw [hp]; exact hs)
  | eating =>
    simp only [hp] at hs
    cases hs
    exact .eat hp
  | releaseSecond | releaseFirst =>
    simp only [hp] at hs
    cases hs
    have hm : Move s n (s.release n _ (s.task n).place.next) := .release (by rw [hp, returns])
    rw [hp] at hm
    exact hm
  | thinking =>
    simp only [hp] at hs
    cases hs
    exact .think hp rfl
  | releaseDone =>
    simp only [hp] at hs
    cases hs
    exact .finish hp
  | finished | panicked =>
    simp only [hp] at hs
    cases hs

theorem Move.task_of_ne (hm : Move s n s') (hne : m ≠ n) : s'.task m = s.task m := by
  cases hm with
  | wait => rfl
  | _ => exact Function.update_of_ne hne _ _

/-! ## The invariant -/

/-- 1 for a philosopher who has finished. -/
def Place.over (p : Place) : Nat := if p = .finished then 1 else 0

/-- The rounds that are over fit the place. -/
def Task.Fits (t : Task) : Prop :=
  if t.place = .releaseDone ∨ t.place = .finished then t.round = eatCount else t.round < eatCount

structure Inv (s : St) : Prop where
  /-- A fork is free, or one philosopher has it. -/
  balance : ∀ i, (s.forks i).permits + ∑ n, (held n (s.task n).place).count i = 1
  waiting : ∀ i n, n ∈ (s.forks i).waiters → wants n (s.task n).place = some i
  nodup : ∀ i, (s.forks i).waiters.Nodup
  done : s.done.permits = ∑ n, (s.task n).place.over
  fits : ∀ n, (s.task n).Fits
  count : ∀ n, s.stats.count n = UInt64.ofNat (s.task n).round
  sound : ∀ n, (s.task n).place ≠ .panicked

/-- Two philosophers do not have the same fork. -/
theorem Inv.exclusive (hi : Inv s) (hn : i ∈ held n (s.task n).place)
    (hm : i ∈ held m (s.task m).place) : n = m := by
  by_contra hne
  have hsub : ({n, m} : Finset Phil) ⊆ Finset.univ := Finset.subset_univ _
  have hle := Finset.sum_le_sum_of_subset (f := fun k => (held k (s.task k).place).count i) hsub
  rw [Finset.sum_pair hne] at hle
  have hbalance := hi.balance i
  have hcountn := List.count_pos_iff.mpr hn
  have hcountm := List.count_pos_iff.mpr hm
  omega

/-- A philosopher who acquires no fork is in no queue. -/
theorem Inv.not_waiting (hi : Inv s) (h : wants n (s.task n).place = none) (i : Fork) :
    n ∉ (s.forks i).waiters := by
  intro hmem
  rw [hi.waiting i n hmem] at h
  cases h

/-- A queue has room for a philosopher who is not in it. -/
theorem Inv.length_lt (hi : Inv s) (h : n ∉ (s.forks i).waiters) :
    (s.forks i).waiters.length < numPhil := by
  have hcard := (List.nodup_cons.mpr ⟨h, hi.nodup i⟩).length_le_card
  rw [Fintype.card_fin, List.length_cons] at hcard
  exact hcard

/-- The place after an acquire or a release is in the same round, and not at its end. -/
theorem Task.Fits.next {t : Task} (h : t.Fits)
    (hp : (wants n t.place).isSome ∨ (returns n t.place).isSome) :
    ({ t with place := t.place.next } : Task).Fits ∧ t.place.over = 0 ∧ t.place.next.over = 0 ∧
      t.place.next ≠ .panicked := by
  obtain ⟨round, place⟩ := t
  cases place <;> simp_all [Task.Fits, Place.next, Place.over, wants, returns]

/-- A step of philosopher `n` that keeps the balances keeps the invariant. -/
theorem Inv.of_self (hi : Inv s) (htask : ∀ m, m ≠ n → s'.task m = s.task m)
    (hbalance : ∀ i, (s'.forks i).permits + (held n (s'.task n).place).count i =
      (s.forks i).permits + (held n (s.task n).place).count i)
    (hwaiting : ∀ i m, m ∈ (s'.forks i).waiters →
      m ≠ n ∧ m ∈ (s.forks i).waiters ∨ m = n ∧ wants n (s'.task n).place = some i)
    (hnodup : ∀ i, (s'.forks i).waiters.Nodup)
    (hdone : s'.done.permits + (s.task n).place.over = s.done.permits + (s'.task n).place.over)
    (hfits : (s'.task n).Fits) (hcounts : ∀ m, m ≠ n → s'.stats.count m = s.stats.count m)
    (hcount : s'.stats.count n = UInt64.ofNat (s'.task n).round)
    (hsound : (s'.task n).place ≠ .panicked) : Inv s' where
  balance i := by
    -- Only the term of `n` changes.
    have hsum := sum_of_eq_off (F := fun m => (held m (s.task m).place).count i)
      (G := fun m => (held m (s'.task m).place).count i) (Finset.mem_univ n)
      fun m hm => by rw [htask m hm]
    have hold := hi.balance i
    have hself := hbalance i
    omega
  waiting i m hm := by
    obtain ⟨hne, hm⟩ | ⟨rfl, hwants⟩ := hwaiting i m hm
    · rw [htask m hne]
      exact hi.waiting i m hm
    · exact hwants
  nodup := hnodup
  done := by
    have hsum := sum_of_eq_off (F := fun m => (s.task m).place.over)
      (G := fun m => (s'.task m).place.over) (Finset.mem_univ n) fun m hm => by rw [htask m hm]
    have hold := hi.done
    omega
  fits m := by
    by_cases hm : m = n
    · subst hm
      exact hfits
    · rw [htask m hm]
      exact hi.fits m
  count m := by
    by_cases hm : m = n
    · subst hm
      exact hcount
    · rw [hcounts m hm, htask m hm]
      exact hi.count m
  sound m := by
    by_cases hm : m = n
    · subst hm
      exact hsound
    · rw [htask m hm]
      exact hi.sound m

theorem Inv.take (hi : Inv s) (hwants : wants n (s.task n).place = some i)
    (hpermits : 1 ≤ (s.forks i).permits)
    (hfront : (s.forks i).waiters.head? = some n ∨ (s.forks i).waiters = []) :
    Inv ((s.setFork i ⟨(s.forks i).permits - 1, (s.forks i).waiters.tail⟩).goto n
      (s.task n).place.next) := by
  obtain ⟨hfits, hover, hover', hsound⟩ := (hi.fits n).next (n := n) (.inl (by rw [hwants]; rfl))
  refine hi.of_self (n := n) (fun m hm => Function.update_of_ne hm _ _) (fun j => ?_)
    (fun j m hm => .inl ?_) (fun j => ?_) ?_ ?_ (fun m _ => rfl) ?_ ?_
  · simp only [St.goto, St.setFork, Function.update_self, held_of_wants hwants, List.count_append]
    by_cases hj : j = i
    · subst hj
      simp only [Function.update_self, List.count_singleton_self]
      omega
    · simp [Function.update_of_ne hj, Ne.symm hj]
  · by_cases hj : j = i
    · subst hj
      simp only [St.goto, St.setFork, Function.update_self] at hm
      refine ⟨?_, List.mem_of_mem_tail hm⟩
      rintro rfl
      -- He was at the front, and is in the queue once.
      have hnodup := hi.nodup j
      rcases hfront with hfront | hempty
      · obtain ⟨rest, hrest⟩ := List.head?_eq_some_iff.mp hfront
        rw [hrest] at hm hnodup
        exact (List.nodup_cons.mp hnodup).1 hm
      · rw [hempty] at hm
        cases hm
    · simp only [St.goto, St.setFork, Function.update_of_ne hj] at hm
      refine ⟨?_, hm⟩
      rintro rfl
      have hwants' := (hi.waiting j m hm).symm.trans hwants
      exact hj (Option.some.inj hwants')
  · simp only [St.goto, St.setFork]
    by_cases hj : j = i
    · subst hj
      simp only [Function.update_self]
      exact (hi.nodup j).tail
    · simp only [Function.update_of_ne hj]
      exact hi.nodup j
  · simp only [St.goto, St.setFork, Function.update_self, hover, hover']
  · simp only [St.goto, Function.update_self]
    exact hfits
  · simp only [St.goto, Function.update_self]
    exact hi.count n
  · simp only [St.goto, Function.update_self]
    exact hsound

theorem Inv.wait (hi : Inv s) (hwants : wants n (s.task n).place = some i)
    (hnot : n ∉ (s.forks i).waiters) :
    Inv (s.setFork i ⟨(s.forks i).permits, (s.forks i).waiters ++ [n]⟩) := by
  refine hi.of_self (n := n) (fun m _ => rfl) (fun j => ?_) (fun j m hm => ?_) (fun j => ?_) rfl
    (hi.fits n) (fun m _ => rfl) (hi.count n) (hi.sound n)
  · by_cases hj : j = i
    · subst hj
      simp only [St.setFork, Function.update_self]
    · simp only [St.setFork, Function.update_of_ne hj]
  · by_cases hmn : m = n
    · subst hmn
      refine .inr ⟨rfl, ?_⟩
      by_cases hj : j = i
      · subst hj
        exact hwants
      · simp only [St.setFork, Function.update_of_ne hj] at hm
        exact hi.waiting j m hm
    · refine .inl ⟨hmn, ?_⟩
      by_cases hj : j = i
      · subst hj
        simpa [St.setFork, hmn] using hm
      · simpa only [St.setFork, Function.update_of_ne hj] using hm
  · by_cases hj : j = i
    · subst hj
      simp only [St.setFork, Function.update_self]
      exact List.nodup_append.mpr ⟨hi.nodup j, List.nodup_singleton n, fun a ha b hb => by
        rintro rfl
        exact hnot (List.mem_singleton.mp hb ▸ ha)⟩
    · simp only [St.setFork, Function.update_of_ne hj]
      exact hi.nodup j

theorem Inv.release (hi : Inv s) (hreturns : returns n (s.task n).place = some i) :
    Inv (s.release n i (s.task n).place.next) := by
  obtain ⟨hfits, hover, hover', hsound⟩ :=
    (hi.fits n).next (n := n) (.inr (by rw [hreturns]; rfl))
  have hwaiters : ∀ j, ((s.release n i (s.task n).place.next).forks j).waiters =
      (s.forks j).waiters := by
    intro j
    by_cases hj : j = i
    · subst hj
      simp [St.release, St.goto, St.setFork, FairSemaphore.release]
    · simp [St.release, St.goto, St.setFork, Function.update_of_ne hj]
  refine hi.of_self (n := n) (fun m hm => Function.update_of_ne hm _ _) (fun j => ?_)
    (fun j m hm => .inl ?_) (fun j => ?_) ?_ ?_ (fun m _ => rfl) ?_ ?_
  · simp only [St.release, St.goto, St.setFork, Function.update_self, held_of_returns hreturns,
      List.count_append]
    by_cases hj : j = i
    · subst hj
      simp only [Function.update_self, List.count_singleton_self, FairSemaphore.release]
      omega
    · simp [Function.update_of_ne hj, Ne.symm hj]
  · rw [hwaiters] at hm
    refine ⟨?_, hm⟩
    rintro rfl
    exact hi.not_waiting (wants_of_returns hreturns) j hm
  · rw [hwaiters]
    exact hi.nodup j
  · simp only [St.release, St.goto, St.setFork, Function.update_self, hover, hover']
  · simp only [St.release, St.goto, Function.update_self]
    exact hfits
  · simp only [St.release, St.goto, Function.update_self]
    exact hi.count n
  · simp only [St.release, St.goto, Function.update_self]
    exact hsound

/-- A step that has nothing to do with the forks. -/
theorem Inv.other (hi : Inv s) (htask : ∀ m, m ≠ n → s'.task m = s.task m)
    (hforks : s'.forks = s.forks) (hheld : held n (s'.task n).place = held n (s.task n).place)
    (hwants : wants n (s.task n).place = none)
    (hdone : s'.done.permits + (s.task n).place.over = s.done.permits + (s'.task n).place.over)
    (hfits : (s'.task n).Fits) (hcounts : ∀ m, m ≠ n → s'.stats.count m = s.stats.count m)
    (hcount : s'.stats.count n = UInt64.ofNat (s'.task n).round)
    (hsound : (s'.task n).place ≠ .panicked) : Inv s' := by
  refine hi.of_self htask (fun i => ?_) (fun i m hm => .inl ?_) (fun i => ?_) hdone hfits hcounts
    hcount hsound
  · rw [hforks, hheld]
  · rw [hforks] at hm
    refine ⟨?_, hm⟩
    rintro rfl
    exact hi.not_waiting hwants i hm
  · rw [hforks]
    exact hi.nodup i

theorem Inv.of_move (hi : Inv s) (hm : Move s n s') : Inv s' := by
  have htask : ∀ m, m ≠ n → s'.task m = s.task m := fun m hne => hm.task_of_ne hne
  have hfits := hi.fits n
  cases hm with
  | take hwants hpermits hfront => exact hi.take hwants hpermits hfront
  | wait hwants hnot => exact hi.wait hwants hnot
  | full hwants hnot hlen => exact absurd (hi.length_lt hnot) (Nat.not_lt.mpr hlen)
  | release hreturns => exact hi.release hreturns
  | eat hplace =>
    refine hi.other htask rfl ?_ ?_ ?_ ?_ (fun m _ => rfl) ?_ ?_
    · simp [St.goto, hplace, held]
    · rw [hplace]
      rfl
    · simp [St.goto, hplace, Place.over]
    · simpa [St.goto, Task.Fits, hplace] using hfits
    · simpa [St.goto, Stats.recordEat] using hi.count n
    · simp [St.goto]
  | @think time p hplace hp =>
    have hround : (s.task n).round < eatCount := by
      simpa [Task.Fits, hplace] using hfits
    have hcases : p = .acquireFirst ∧ (s.task n).round + 1 < eatCount ∨
        p = .releaseDone ∧ (s.task n).round + 1 = eatCount := by
      split at hp
      · exact .inl ⟨hp, ‹_›⟩
      · exact .inr ⟨hp, by omega⟩
    refine hi.other htask rfl ?_ ?_ ?_ ?_ (fun m hne => ?_) ?_ ?_
    · obtain ⟨rfl, -⟩ | ⟨rfl, -⟩ := hcases <;> simp [hplace, held]
    · rw [hplace]
      rfl
    · obtain ⟨rfl, -⟩ | ⟨rfl, -⟩ := hcases <;> simp [hplace, Place.over]
    · obtain ⟨rfl, hlt⟩ | ⟨rfl, heq⟩ := hcases
      · simpa [Task.Fits] using hlt
      · simpa [Task.Fits] using heq
    · exact Function.update_of_ne hne _ _
    · simp [Stats.recordThink, hi.count n, UInt64.ofNat_add]
    · obtain ⟨rfl, -⟩ | ⟨rfl, -⟩ := hcases <;> simp
  | finish hplace =>
    refine hi.other htask rfl ?_ ?_ ?_ ?_ (fun m _ => rfl) ?_ ?_
    · simp [St.goto, hplace, held]
    · rw [hplace]
      rfl
    · simp [St.goto, hplace, Place.over, FairSemaphore.release]
    · simpa [St.goto, Task.Fits, hplace] using hfits
    · simpa [St.goto] using hi.count n
    · simp [St.goto]

/-! ## The task `phil` -/

/-- The steps of `phil`. -/
inductive MainMove (s : St) : St → Prop
  | take (hphil : s.phil = .acquireDone) (hpermits : numPhil ≤ s.done.permits) :
      MainMove s
        { s with
          done := ⟨s.done.permits, s.done.waiters.tail⟩
          phil := .signal }
  | wait (hphil : s.phil = .acquireDone) (hempty : s.done.waiters = []) :
      MainMove s { s with done := ⟨s.done.permits, [()]⟩ }
  | signal (hphil : s.phil = .signal) : MainMove s { s with phil := .finished }

/-- Its queue is never full, because it is the only one in it. -/
theorem MainMove.of_main (hs : s.main = some s') : MainMove s s' := by
  unfold St.main at hs
  cases hphil : s.phil with
  | acquireDone =>
    simp only [hphil, FairSemaphore.pollAcquire] at hs
    by_cases hmem : () ∈ s.done.waiters
    · simp only [if_pos hmem] at hs
      by_cases hready : s.done.waiters.head? = some () ∧ numPhil ≤ s.done.permits
      · simp only [if_pos hready] at hs
        cases hs
        have hm := MainMove.take hphil hready.2
        rw [← Nat.sub_add_cancel hready.2] at hm
        exact hm
      · simp only [if_neg hready] at hs
        cases hs
    · have hempty : s.done.waiters = [] := by
        cases hw : s.done.waiters with
        | nil => rfl
        | cons w ws =>
          rw [hw] at hmem
          exact absurd List.mem_cons_self hmem
      simp only [hempty, true_and, List.length_nil, List.nil_append] at hs
      by_cases hpermits : numPhil ≤ s.done.permits
      · simp only [if_pos hpermits] at hs
        cases hs
        have hm := MainMove.take hphil hpermits
        rw [hempty, List.tail_nil, ← Nat.sub_add_cancel hpermits] at hm
        exact hm
      · simp only [if_neg hpermits] at hs
        cases hs
        have hm := MainMove.wait hphil hempty
        rw [hphil] at hm
        exact hm
  | signal =>
    simp only [hphil] at hs
    cases hs
    exact .signal hphil
  | finished | panicked =>
    simp only [hphil] at hs
    cases hs

theorem Inv.of_main (hi : Inv s) (hm : MainMove s s') : Inv s' := by
  cases hm with
  | take | wait | signal =>
    exact ⟨hi.balance, hi.waiting, hi.nodup, hi.done, hi.fits, hi.count, hi.sound⟩

theorem Inv.of_reachable (h : dinner.Reachable s) : Inv s := by
  refine h.invariant ?_ fun s a s' hi hs => ?_
  · refine ⟨fun i => ?_, ?_, ?_, ?_, ?_, ?_, ?_⟩
    · simp [dinner, held]
    · intro i n h
      cases h
    · intro i
      exact List.nodup_nil
    · simp [dinner, Place.over]
    · intro n
      simp [dinner, Task.Fits, eatCount]
    · intro n
      rfl
    · intro n
      simp [dinner]
  · cases a with
    | onePhil n time => exact hi.of_move (.of_onePhil hs)
    | phil => exact hi.of_main (.of_main hs)

theorem Move.main_eq (hm : Move s n s') : s'.phil = s.phil ∧ s'.done.waiters = s.done.waiters := by
  cases hm <;> exact ⟨rfl, rfl⟩

/-- The steps that a philosopher has to do, when he is in no queue. -/
def Task.weight (t : Task) : Nat :=
  match t.place with
  | .acquireFirst => 10 * (eatCount - 1 - t.round) + 9
  | .acquireSecond => 10 * (eatCount - 1 - t.round) + 7
  | .eating => 10 * (eatCount - 1 - t.round) + 5
  | .releaseSecond => 10 * (eatCount - 1 - t.round) + 4
  | .releaseFirst => 10 * (eatCount - 1 - t.round) + 3
  | .thinking => 10 * (eatCount - 1 - t.round) + 2
  | .releaseDone => 1
  | .finished | .panicked => 0

/-- The steps that philosopher `n` has to do. The way into a queue is one of them. -/
def left (s : St) (n : Phil) : Nat :=
  (s.task n).weight - if ∃ i, n ∈ (s.forks i).waiters then 1 else 0

/-- The steps that `phil` has to do. -/
def mainLeft (s : St) : Nat :=
  match s.phil with
  | .acquireDone => if s.done.waiters = [] then 3 else 2
  | .signal => 1
  | .finished | .panicked => 0

def work (s : St) : Nat := ∑ n, left s n + mainLeft s

/-- The queues of another philosopher stay. -/
theorem Move.mem_waiters (hm : Move s n s') (hne : m ≠ n) (j : Fork) :
    m ∈ (s'.forks j).waiters ↔ m ∈ (s.forks j).waiters := by
  cases hm with
  | @take i hwants hpermits hfront =>
    by_cases hj : j = i
    · subst hj
      simp only [St.goto, St.setFork, Function.update_self]
      rcases hfront with hfront | hempty
      · obtain ⟨rest, hrest⟩ := List.head?_eq_some_iff.mp hfront
        simp [hrest, hne]
      · simp [hempty]
    · simp only [St.goto, St.setFork, Function.update_of_ne hj]
  | @wait i hwants hnot =>
    by_cases hj : j = i
    · subst hj
      simp [St.setFork, hne]
    · simp only [St.setFork, Function.update_of_ne hj]
  | @release i hreturns =>
    by_cases hj : j = i
    · subst hj
      simp [St.release, St.goto, St.setFork, FairSemaphore.release]
    · simp only [St.release, St.goto, St.setFork, Function.update_of_ne hj]
  | _ => rfl

theorem Move.left_of_ne (hm : Move s n s') (hne : m ≠ n) : left s' m = left s m := by
  simp only [left, hm.task_of_ne hne, hm.mem_waiters hne]

theorem left_le (s : St) (n : Phil) : left s n ≤ (s.task n).weight := Nat.sub_le _ _

theorem le_left (s : St) (n : Phil) : (s.task n).weight ≤ left s n + 1 := by
  unfold left
  split <;> omega

/-- A philosopher who acquires no fork has all his steps left. -/
theorem Inv.left_eq (hi : Inv s) (h : wants n (s.task n).place = none) :
    left s n = (s.task n).weight := by
  have hno : ¬∃ i, n ∈ (s.forks i).waiters := fun ⟨i, hmem⟩ => hi.not_waiting h i hmem
  rw [left, if_neg hno, Nat.sub_zero]

theorem weight_next_of_wants {t : Task} (h : wants n t.place = some i) :
    ({ t with place := t.place.next } : Task).weight + 2 = t.weight := by
  obtain ⟨round, place⟩ := t
  cases place <;> cases h <;> simp [Task.weight, Place.next]

theorem weight_next_of_returns {t : Task} (h : returns n t.place = some i) :
    ({ t with place := t.place.next } : Task).weight + 1 = t.weight := by
  obtain ⟨round, place⟩ := t
  cases place <;> cases h <;> simp [Task.weight, Place.next]

/-- The last step of a round leaves less than the round. -/
theorem weight_think {t : Task} (h : t.place = .thinking) {p : Place}
    (hp : p = if t.round + 1 < eatCount then .acquireFirst else .releaseDone) :
    (⟨t.round + 1, p⟩ : Task).weight < t.weight := by
  obtain ⟨round, place⟩ := t
  cases h
  split at hp
  · rename_i hround
    subst hp
    simp only [Task.weight] at hround ⊢
    omega
  · subst hp
    simp only [Task.weight]
    omega

/-- Each step of a philosopher leaves him less to do. -/
theorem Move.left_lt (hm : Move s n s') (hi : Inv s) : left s' n < left s n := by
  have hle := left_le s' n
  have hge := le_left s n
  cases hm with
  | @take i hwants hpermits hfront =>
    have hweight : (((s.setFork i ⟨(s.forks i).permits - 1, (s.forks i).waiters.tail⟩).goto n
        (s.task n).place.next).task n).weight + 2 = (s.task n).weight := by
      rw [← weight_next_of_wants hwants]
      simp only [St.goto, St.setFork, Function.update_self]
    omega
  | @wait i hwants hnot =>
    have hno : ¬∃ j, n ∈ (s.forks j).waiters := by
      rintro ⟨j, hmem⟩
      have hij := (hi.waiting j n hmem).symm.trans hwants
      cases hij
      exact hnot hmem
    -- He is in a queue now, and that was the step.
    have hyes : ∃ j, n ∈ ((s.setFork i
        ⟨(s.forks i).permits, (s.forks i).waiters ++ [n]⟩).forks j).waiters :=
      ⟨i, by simp [St.setFork]⟩
    have hweight := weight_next_of_wants hwants
    rw [left, left, if_neg hno, if_pos hyes]
    simp only [St.setFork]
    omega
  | full hwants hnot hlen => exact absurd (hi.length_lt hnot) (Nat.not_lt.mpr hlen)
  | @release i hreturns =>
    have hweight : ((s.release n i (s.task n).place.next).task n).weight + 1 =
        (s.task n).weight := by
      rw [← weight_next_of_returns hreturns]
      simp only [St.release, St.goto, St.setFork, Function.update_self]
    have hleft := hi.left_eq (wants_of_returns hreturns)
    omega
  | eat hplace =>
    have hleft := hi.left_eq (n := n) (by rw [hplace]; rfl)
    simp only [St.goto, Function.update_self, Task.weight, hplace] at hle hleft ⊢
    omega
  | @think time p hplace hp =>
    have hleft := hi.left_eq (n := n) (by rw [hplace]; rfl)
    have hweight := weight_think hplace hp
    simp only [Function.update_self] at hle
    omega
  | finish hplace =>
    have hleft := hi.left_eq (n := n) (by rw [hplace]; rfl)
    simp only [St.goto, Function.update_self, Task.weight, hplace] at hle hleft ⊢
    omega

/-- Each step of `phil` leaves it less to do. -/
theorem MainMove.left_lt (hm : MainMove s s') : mainLeft s' < mainLeft s := by
  cases hm with
  | take hphil hpermits =>
    simp only [mainLeft, hphil]
    split <;> omega
  | wait hphil hempty => simp [mainLeft, hphil, hempty]
  | signal hphil => simp [mainLeft, hphil]

theorem lowers_work : dinner.Lowers (fun _ _ => True) Inv work where
  keeps s a s' hi _ hs := by
    cases a with
    | onePhil n time => exact hi.of_move (.of_onePhil hs)
    | phil => exact hi.of_main (.of_main hs)
  lowers s a s' hi _ hs := by
    cases a with
    | onePhil n time =>
      have hm := Move.of_onePhil hs
      have hsum := sum_of_eq_off (F := left s) (G := left s') (Finset.mem_univ n)
        fun m hne => hm.left_of_ne hne
      have hlt := hm.left_lt hi
      have hmain : mainLeft s' = mainLeft s := by
        simp only [mainLeft, hm.main_eq.1, hm.main_eq.2]
      unfold work
      omega
    | phil =>
      have hm := MainMove.of_main hs
      have hlt := hm.left_lt
      have hleft : ∑ n, left s' n = ∑ n, left s n := by
        cases hm <;> rfl
      unfold work
      omega

/-! ## The end -/

/-- The philosopher who has fork `i`. -/
def holder (s : St) (i : Fork) : Option Phil :=
  (List.finRange numPhil).find? fun n => i ∈ held n (s.task n).place

end ZephyrRust.Philosophers.AsyncSem
