import ZephyrRust.Proofs.Blocking.Ownership

/-!
# `ZephyrRust.Proofs.Blocking.Waiters`: no lost wakeup for a task that waits for a slot

`SlotPool::claim` scans the slots one by one under the lock of `waiters`, and
`SlotPool::release` stores `Free` before it takes that lock. So a slot that becomes free
behind a scan belongs to a releaser that has not taken the lock yet, and this releaser wakes
the task after the scan has registered it. `Covered s n` is the part of this argument for the
first `n` slots, and `Waiters` is the invariant.
-/

set_option autoImplicit false

namespace ZephyrRust.Blocking

variable {c : Config} {s s' : St c}

/-- The future has stored `Free` and has not performed its `waiters.wake()`. -/
def FutPc.releasing : FutPc c → Prop
  | .ready _ .lock => True
  | .ready _ .wake => True
  | .discard _ .lock => True
  | .discard _ .wake => True
  | _ => False

/-- The worker has stored `Free` and has not performed its `waiters.wake()`. -/
def WrkPc.releasing : WrkPc c → Prop
  | .release .lock => True
  | .release .wake => True
  | _ => False

/-- The next operation of the future is `waiters.wake()`. -/
def FutPc.waking : FutPc c → Prop
  | .ready _ .wake => True
  | .discard _ .wake => True
  | _ => False

/-- Some releaser has stored `Free` and has not performed its `waiters.wake()`. -/
def Pending (s : St c) : Prop :=
  (∃ f, (s.fut f).pc.releasing) ∨ ∃ k, (s.wrk k).releasing

/-- When one of the first `n` slots is free, a releaser is about to wake the waiters. -/
def Covered (s : St c) (n : Nat) : Prop :=
  ∀ j : Fin c.slots, j < n → (s.slots j).state = .free → Pending s

/-- The tasks that wait for a slot, and the scans in progress. -/
structure Waiters (s : St c) : Prop where
  /-- The scan has found no slot so far. -/
  scanned : ∀ f w i, (s.fut f).pc = .claim w (.scan i) → Covered s i
  /-- The scan has found no slot. -/
  failed : ∀ f w, (s.fut f).pc = .claim w .register ∨ (s.fut f).pc = .claim w (.unlock none) →
    Covered s c.slots
  /-- The waker of a failed claim is stored before the lock is released. -/
  stored : ∀ f w, (s.fut f).pc = .claim w (.unlock none) → w ∈ c.multiWaker.wakers s.waiters
  /-- The task waits and was not woken. -/
  waiting : ∀ f, (s.obs f).waiting = true → (s.obs f).woken = false →
    Covered s c.slots ∧ ∃ w, (s.obs f).waker = some w ∧ w ∈ c.multiWaker.wakers s.waiters
  /-- A future that waits has no slot. -/
  unclaimed : ∀ f, (s.obs f).waiting = true → (s.fut f).pc = .idle ∧ (s.fut f).slot = none ∨
    (∃ w p, (s.fut f).pc = .claim w p) ∨ (s.fut f).pc = .dropped

/-! ## What the operations do to the free slots and the releasers -/

theorem FutMove.pending {f : c.Fut} (hm : FutMove s f s') (hw : ¬(s.fut f).pc.waking)
    (hp : Pending s) : Pending s' := by
  rcases hp with ⟨g, hg⟩ | ⟨k, hk⟩
  · refine Or.inl ⟨g, ?_⟩
    by_cases hgf : g = f
    · subst hgf
      cases hm <;> simp_all [FutPc.releasing, FutPc.waking]
    · rwa [hm.fut_of_ne hgf]
  · refine Or.inr ⟨k, ?_⟩
    rcases hm.wrk k with he | ⟨hoff, -⟩
    · rwa [he]
    · simp [hoff, WrkPc.releasing] at hk

/-- A slot that an operation frees has a releaser. -/
theorem FutMove.freed {f : c.Fut} (hm : FutMove s f s') {j : Fin c.slots}
    (hj : (s'.slots j).state = .free) : (s.slots j).state = .free ∨ Pending s' := by
  rcases hm.state j with he | ⟨hne, -⟩ | ⟨-, hpc⟩
  · exact Or.inl (he ▸ hj)
  · exact absurd hj hne
  · refine Or.inr (Or.inl ⟨f, ?_⟩)
    rcases hpc with ⟨v, hpc⟩ | ⟨b, hpc⟩ <;> simp [hpc, FutPc.releasing]

theorem FutMove.covered {f : c.Fut} (hm : FutMove s f s') (hw : ¬(s.fut f).pc.waking)
    {n : Nat} (h : Covered s n) : Covered s' n := by
  intro j hj hfree
  rcases hm.freed hfree with hs | hp
  · exact hm.pending hw (h j hj hs)
  · exact hp

theorem WrkMove.covered {k : Fin c.threads} (hm : WrkMove s k s')
    (hw : s.wrk k ≠ .release .wake) {n : Nat} (h : Covered s n) : Covered s' n := by
  have hpend : Pending s → Pending s' := by
    rintro (⟨g, hg⟩ | ⟨l, hl⟩)
    · refine Or.inl ⟨g, ?_⟩
      rwa [(hm.fut g).1]
    · refine Or.inr ⟨l, ?_⟩
      by_cases hlk : l = k
      · subst hlk
        cases hm <;> simp_all [WrkPc.releasing]
      · rwa [hm.wrk_of_ne hlk]
  intro j hj hfree
  rcases hm.state j with he | ⟨hdone, -⟩ | ⟨-, hpc⟩
  · exact hpend (h j hj (he ▸ hfree))
  · rw [hdone] at hfree
    cases hfree
  · exact Or.inr ⟨k, by simp [hpc, WrkPc.releasing]⟩

/-! ## What the operations do to the scans and the wakers -/

/-- A scan is at its start, or it has just skipped a slot. -/
theorem FutMove.scan {f g : c.Fut} (hm : FutMove s f s') {w : c.Waker} {i : Nat}
    (hg : (s'.fut g).pc = .claim w (.scan i)) : i = 0 ∨ (s.fut g).pc = .claim w (.scan i) ∨
      ∃ j : Fin c.slots, i = j + 1 ∧ (s.fut g).pc = .claim w (.scan j) ∧
        (s'.slots j).state ≠ .free := by
  by_cases hgf : g = f
  · subst hgf
    cases hm with
    | @claimSkip w' j hpc hstate =>
      simp only [St.setPc, St.setFut, Function.update_self, FutPc.claim.injEq,
        ClaimPc.scan.injEq] at hg
      obtain ⟨rfl, rfl⟩ := hg
      exact Or.inr (Or.inr ⟨j, rfl, hpc, hstate⟩)
    | _ => simp_all
  · rw [hm.fut_of_ne hgf] at hg
    exact Or.inr (Or.inl hg)

/-- A scan that found nothing has looked at all slots. -/
theorem FutMove.scanEnd {f g : c.Fut} (hm : FutMove s f s') {w : c.Waker}
    (hg : (s'.fut g).pc = .claim w .register ∨ (s'.fut g).pc = .claim w (.unlock none)) :
    (s.fut g).pc = .claim w .register ∨ (s.fut g).pc = .claim w (.unlock none) ∨
      ∃ i ≥ c.slots, (s.fut g).pc = .claim w (.scan i) := by
  by_cases hgf : g = f
  · subst hgf
    cases hm <;> simp_all
  · rw [hm.fut_of_ne hgf] at hg
    exact hg.imp_right Or.inl

/-- An operation of a future other than a `waiters.wake()` keeps `Waiters`. -/
theorem Waiters.futMove {f : c.Fut} (h : Waiters s) (hl : Locked s)
    (hok : FutOk f (s.fut f)) (hw : ¬(s.fut f).pc.waking) (hm : FutMove s f s') :
    Waiters s' where
  scanned g w i hg := by
    -- A scan at its start has looked at nothing. A scan that goes on has skipped a slot.
    rcases hm.scan hg with rfl | hg | ⟨j, rfl, hg, hj⟩
    · exact fun j hj => absurd hj (Nat.not_lt_zero _)
    · exact hm.covered hw (h.scanned g w i hg)
    · intro l hlt hfree
      rcases Nat.lt_succ_iff_lt_or_eq.mp hlt with hlt | heq
      · exact hm.covered hw (h.scanned g w j hg) l hlt hfree
      · exact absurd (Fin.ext heq ▸ hfree) hj
  failed g w hg := by
    rcases hm.scanEnd hg with hg | hg | ⟨i, hi, hg⟩
    · exact hm.covered hw (h.failed g w (Or.inl hg))
    · exact hm.covered hw (h.failed g w (Or.inr hg))
    · exact fun j _ hfree =>
        hm.covered hw (h.scanned g w i hg) j (Nat.lt_of_lt_of_le j.isLt hi) hfree
  stored g w hg := by
    by_cases hgf : g = f
    · subst hgf
      cases hm with
      | claimRegister hpc =>
        simp only [St.setPc, St.setFut, Function.update_self, FutPc.claim.injEq] at hg
        rw [← hg.1]
        exact c.multiWaker.mem_register _ _
      | _ => simp_all [FutPc.waking]
    · rw [hm.fut_of_ne hgf] at hg
      have hs := h.stored g w hg
      cases hm with
      | claimRegister hpcf =>
        -- Both futures would hold the lock of `waiters`.
        have hf := hl.waitFut f (by simp [FutPc.inWaiters, hpcf])
        have hg' := hl.waitFut g (by simp [FutPc.inWaiters, hg])
        simp only [hf, Option.some.injEq, Party.fut.injEq] at hg'
        exact absurd hg'.symm hgf
      | readyWake hpcf => simp [FutPc.waking, hpcf] at hw
      | discardWake hpcf => simp [FutPc.waking, hpcf] at hw
      | _ => exact hs
  waiting g hwait hwoken := by
    -- Most operations leave the registration and the waker of `g`.
    have hstay : (s.obs g).waiting = true → (s.obs g).woken = false →
        (s'.obs g).waker = (s.obs g).waker → s'.waiters = s.waiters →
        Covered s' c.slots ∧ ∃ w, (s'.obs g).waker = some w ∧
          w ∈ c.multiWaker.wakers s'.waiters := by
      intro hwait hwoken hobs hwaiters
      obtain ⟨hcov, w, hw', hmem⟩ := h.waiting g hwait hwoken
      exact ⟨hm.covered hw hcov, w, hobs.trans hw', hwaiters ▸ hmem⟩
    have hcov := fun n (hn : Covered s n) => hm.covered hw hn
    cases hm with
    | @claimRegister w hpc =>
      simp only [St.setPc, St.setFut, St.wakeTasks, Bool.or_eq_false_iff] at hwait hwoken
      obtain ⟨hc, w', hw', hmem⟩ := h.waiting g hwait hwoken.1
      refine ⟨hcov _ hc, w', hw', ?_⟩
      rcases c.multiWaker.register_keeps s.waiters w w' hmem with hk | hk
      · exact hk
      · -- The registration was full and has woken the task.
        simp [hw', hk] at hwoken
    | @claimNone w hpc =>
      -- The claim has failed: the task waits from here on.
      by_cases hgf : g = f
      · subst hgf
        exact ⟨hcov _ (h.failed g w (Or.inr hpc)), w, by simp, h.stored g w hpc⟩
      · simp only [St.setPc, St.setFut, Function.update_of_ne hgf] at hwait hwoken
        exact hstay hwait hwoken (by simp [hgf]) rfl
    | @claimSome w i hpc =>
      by_cases hgf : g = f
      · simp [hgf] at hwait
      · simp only [St.setPc, St.setFut, Function.update_of_ne hgf] at hwait hwoken
        exact hstay hwait hwoken (by simp [hgf]) rfl
    | @registerFirst w i hpc | @register w i hpc =>
      by_cases hgf : g = f
      · have hun := h.unclaimed f (by simpa [hgf] using hwait)
        simp [hpc] at hun
      · simp only [St.setPc, St.setFut, St.registerWaker, St.setSlot,
          Function.update_of_ne hgf] at hwait hwoken
        exact hstay hwait hwoken (by simp [hgf]) rfl
    | readyWake hpc => simp [FutPc.waking, hpc] at hw
    | discardWake hpc => simp [FutPc.waking, hpc] at hw
    | _ => exact hstay hwait hwoken rfl rfl
  unclaimed g hwait := by
    by_cases hgf : g = f
    · subst hgf
      have hun := h.unclaimed g
      cases hm with
      | claimNone hpc =>
        simp only [FutOk, hpc] at hok
        exact Or.inl ⟨by simp, by simp [hok.1]⟩
      | _ => simp_all
    · rw [hm.fut_of_ne hgf]
      refine h.unclaimed g ?_
      cases hm <;> simpa [hgf] using hwait

/-- A claim that is past its lock operation holds the lock of `waiters`. -/
theorem Locked.claim_waits {g : c.Fut} {w : c.Waker} {p : ClaimPc c} (hl : Locked s)
    (hg : (s.fut g).pc = .claim w p) (hlock : s.waitersLock ≠ some (.fut g)) : p = .lock := by
  by_contra hp
  refine hlock (hl.waitFut g ?_)
  cases p <;> simp_all [FutPc.inWaiters]

/-- After a `waiters.wake()` by a party that holds the lock, every waiting task is woken. -/
theorem Waiters.wakeAll (h : Waiters s)
    (hidle : ∀ g w p, (s.fut g).pc = .claim w p → p = .lock)
    (hobs : s'.obs = (s.wakeTasks (c.multiWaker.wake s.waiters).2).obs)
    (hfut : ∀ g, s'.fut g = s.fut g ∨
      (s.fut g).pc.waking ∧ ∀ w p, (s'.fut g).pc ≠ .claim w p) : Waiters s' := by
  have hidle' : ∀ g w p, (s'.fut g).pc = .claim w p → p = .lock := by
    intro g w p hg
    rcases hfut g with he | ⟨-, hn⟩
    · exact hidle g w p (he ▸ hg)
    · exact absurd hg (hn w p)
  refine ⟨fun g w i hg => ?_, fun g w hg => ?_, fun g w hg => ?_, fun g hwait hwoken => ?_,
    fun g hwait => ?_⟩
  · cases hidle' g w _ hg
  · rcases hg with hg | hg <;> cases hidle' g w _ hg
  · cases hidle' g w _ hg
  · -- The waker of a waiting task is stored, so it is among the woken ones.
    rw [hobs] at hwait hwoken
    simp only [St.wakeTasks, Bool.or_eq_false_iff] at hwait hwoken
    obtain ⟨-, w, hw, hmem⟩ := h.waiting g hwait hwoken.1
    simp [hw, c.multiWaker.wake_all s.waiters w hmem] at hwoken
  · rw [hobs] at hwait
    have hun := h.unclaimed g hwait
    rcases hfut g with he | ⟨hwak, -⟩
    · rwa [he]
    · rcases hun with ⟨hpc, -⟩ | ⟨w, p, hpc⟩ | hpc <;> simp [hpc, FutPc.waking] at hwak

/-- An operation of a worker other than a `waiters.wake()` keeps `Waiters`. -/
theorem Waiters.wrkMove {k : Fin c.threads} (h : Waiters s) (hw : s.wrk k ≠ .release .wake)
    (hm : WrkMove s k s') : Waiters s' := by
  have hcov := fun n (hn : Covered s n) => hm.covered hw hn
  have hfut := hm.fut
  have hwaiters : s'.waiters = s.waiters := by
    cases hm with
    | releaseWake hpc => exact absurd hpc hw
    | _ => rfl
  have hobs : ∀ g, (s'.obs g).waiting = (s.obs g).waiting ∧
      (s'.obs g).waker = (s.obs g).waker ∧
      ((s'.obs g).woken = false → (s.obs g).woken = false) := by
    intro g
    cases hm with
    | wake hpc =>
      refine ⟨rfl, rfl, fun hwoken => ?_⟩
      simp only [St.setWrk, St.wakeTasks, Bool.or_eq_false_iff] at hwoken
      exact hwoken.1
    | releaseWake hpc => exact absurd hpc hw
    | _ => exact ⟨rfl, rfl, id⟩
  refine ⟨fun g w i hg => ?_, fun g w hg => ?_, fun g w hg => ?_, fun g hwait hwoken => ?_,
    fun g hwait => ?_⟩
  · rw [(hfut g).1] at hg
    exact hcov _ (h.scanned g w i hg)
  · rw [(hfut g).1] at hg
    exact hcov _ (h.failed g w hg)
  · rw [(hfut g).1] at hg
    rw [hwaiters]
    exact h.stored g w hg
  · rw [(hobs g).1] at hwait
    obtain ⟨hc, w, hw', hmem⟩ := h.waiting g hwait ((hobs g).2.2 hwoken)
    exact ⟨hcov _ hc, w, (hobs g).2.1.trans hw', hwaiters ▸ hmem⟩
  · rw [(hobs g).1] at hwait
    rw [(hfut g).1, (hfut g).2]
    exact h.unclaimed g hwait

/-- Every operation keeps `Waiters`. -/
theorem Waiters.move (h : Waiters s) (hi : Inv s) (hm : Move s s') : Waiters s' := by
  obtain ⟨hl, sit, ho⟩ := hi
  cases hm with
  | fut f hm =>
    by_cases hw : (s.fut f).pc.waking
    · -- The waker holds the lock of `waiters`, so no claim is past its lock operation.
      have hidle : ∀ g w p, (s.fut g).pc = .claim w p → p = .lock := by
        intro g w p hg
        refine hl.claim_waits hg fun hlock => ?_
        have hf := hl.waitFut f (by unfold FutPc.waking at hw; split at hw <;>
          simp_all [FutPc.inWaiters])
        cases hf.symm.trans hlock
        simp [hg, FutPc.waking] at hw
      cases hm with
      | readyWake hpc | discardWake hpc =>
        refine h.wakeAll hidle rfl fun g => ?_
        by_cases hgf : g = f
        · subst hgf
          exact Or.inr ⟨hw, by simp⟩
        · exact Or.inl (by simp [hgf])
      | _ => simp_all [FutPc.waking]
    · exact h.futMove hl (ho.fut f) hw hm
  | wrk k hm =>
    by_cases hw : s.wrk k = .release .wake
    · cases hm with
      | releaseWake hpc =>
        refine h.wakeAll (fun g w p hg => hl.claim_waits hg fun hlock => ?_) rfl
          fun g => Or.inl rfl
        have hk := hl.waitWrk k (by simp [hw, WrkPc.inWaiters])
        cases hk.symm.trans hlock
      | _ => simp_all
    · exact h.wrkMove hw hm

/-- At the start no task waits. -/
theorem waiters_init : Waiters (init c) := by
  constructor <;> simp [init, Future.new]

/-- No lost wakeup for a task that waits for a slot, in every state of every run of the
pool. When the last claim of a future returned `None` and its task was not woken since, its
waker is stored in `waiters`. When moreover a slot is free, a releaser has stored `Free` and
has not performed its `waiters.wake()`. -/
theorem waiting_task_is_woken (h : (pool c).Reachable s) (f : c.Fut)
    (hwait : (s.obs f).waiting = true) (hwoken : (s.obs f).woken = false) :
    (∃ w, (s.obs f).waker = some w ∧ w ∈ c.multiWaker.wakers s.waiters) ∧
    ((∃ i, (s.slots i).state = .free) →
      (∃ g, (s.fut g).pc.releasing) ∨ ∃ k, (s.wrk k).releasing) := by
  have hi := h.invariant (I := fun s => Inv s ∧ Waiters s)
    ⟨Inv.of_reachable .start, waiters_init⟩
    fun s a s' hs hstep => ⟨hs.1.move (.of_step hstep), hs.2.move hs.1 (.of_step hstep)⟩
  obtain ⟨hcov, hw⟩ := hi.2.waiting f hwait hwoken
  exact ⟨hw, fun ⟨i, hfree⟩ => hcov i i.isLt hfree⟩

/-- The second future of a pool with one slot waits while the poll of the first one has
released the slot and has not yet woken the waiters. -/
theorem waiting_task_is_woken_at_release :
    ∃ s, (pool .single).Reachable s ∧ (s.obs 1).waiting = true ∧ (s.obs 1).woken = false ∧
      (s.slots 0).state = .free ∧ ((∃ g, (s.fut g).pc.releasing) ∨
        ∃ k, (s.wrk k).releasing) := by
  obtain ⟨s, hr, hs⟩ := (pool .single).reachable_of_exec
    (.poll 0 0 :: (List.replicate 12 (.fut 0) ++ .poll 1 1 :: List.replicate 5 (.fut 1) ++
      List.replicate 15 (.wrk 0 7) ++ .poll 0 0 :: List.replicate 5 (.fut 0)))
    (fun s => (s.obs 1).waiting && !(s.obs 1).woken &&
      decide ((s.slots 0).state = .free)) rfl
  simp only [Bool.and_eq_true, Bool.not_eq_true', decide_eq_true_eq] at hs
  obtain ⟨⟨hwait, hwoken⟩, hfree⟩ := hs
  exact ⟨s, hr, hwait, hwoken, hfree, (waiting_task_is_woken hr 1 hwait hwoken).2 ⟨0, hfree⟩⟩

end ZephyrRust.Blocking
