import Mathlib.Algebra.Order.BigOperators.Group.Finset
import ZephyrRust.Lib.Progress
import ZephyrRust.Proofs.Blocking.Waiters
import ZephyrRust.Proofs.Blocking.Completion

/-!
# `ZephyrRust.Proofs.Blocking.Rest`: the blocking pool comes to rest

Suppose that no poll and no drop begins any more. Then the polls and drops under way and the workers
come to an end in every order of their steps: each step lowers the `work` that is left, and a party
that cannot step waits for a lock whose holder can.

`Held` is the converse of `Locked`: who holds a lock is in its critical section, where no operation
waits for a lock. `Starting` says that the workers have been started when something is queued, up to
those that a first poll is about to start.

At rest the queue is empty, and each slot is free or has the result of an idle future whose task was
woken (`AtRest`). So no task waits for a wakeup that does not come.
-/

set_option autoImplicit false

namespace ZephyrRust.Blocking

open ZephyrRust.Lib (System)
open ZephyrRust.Sys (Queue)

variable {c : Config} {s s' : St c}

/-! ## The holders of the locks -/

/-- The party is in the critical section of slot `i`. -/
def Party.inSlot (s : St c) (i : Fin c.slots) : Party c → Prop
  | .fut f => (s.fut f).pc.inSlot = some i
  | .wrk k => (s.wrk k).inSlot = some i

/-- The party is in the critical section of `waiters`. -/
def Party.inWaiters (s : St c) : Party c → Prop
  | .fut f => (s.fut f).pc.inWaiters
  | .wrk k => (s.wrk k).inWaiters

/-- A party that holds a lock is in its critical section. -/
structure Held (s : St c) : Prop where
  slot : ∀ i p, (s.slots i).lock = some p → p.inSlot s i
  waiters : ∀ p, s.waitersLock = some p → p.inWaiters s

theorem FutMove.heldSlot {f : c.Fut} (hm : FutMove s f s') {i : Fin c.slots}
    (h : (s.slots i).lock = some (.fut f) → (s.fut f).pc.inSlot = some i)
    (hl : (s'.slots i).lock = some (.fut f)) : (s'.fut f).pc.inSlot = some i := by
  cases hm with
  | @cancelLock j hpc hlock | @cancelOrphaned j hpc | @cancelFinished j hpc | @claimTake w j hpc
  | @storeQueued w j hpc | @setShared w j hpc | @setRunner w j hpc | @registerFirst w j hpc
  | @register w j hpc | @readyStore v j hpc | @cancelClear j hpc | @cancelStore j hpc
  | @discardStore b j hpc =>
    by_cases hi : i = j
    · subst hi
      simp_all [FutPc.inSlot]
    · simp_all [FutPc.inSlot]
  | _ => simp_all [FutPc.inSlot]

theorem WrkMove.heldSlot {k : Fin c.threads} (hm : WrkMove s k s') (hok : WrkOk (s'.wrk k))
    {i : Fin c.slots} (h : (s.slots i).lock = some (.wrk k) → (s.wrk k).inSlot = some i)
    (hl : (s'.slots i).lock = some (.wrk k)) : (s'.wrk k).inSlot = some i := by
  cases hm with
  | @takeLock t j hpc hlock | @finishLock t j op v hpc hlock | @takeNone t j hpc
  | @takeSome t j op hpc | @finishAbandon t j op v hpc | @finishUnlock t j op v hpc
  | @finishStore t j op v hpc | @wake j op hpc | @releaseStore j hpc =>
    by_cases hi : i = j
    · subst hi
      simp_all [WrkPc.inSlot]
    · simp_all [WrkPc.inSlot]
  | _ => simp_all [WrkPc.inSlot, WrkOk]

theorem FutMove.heldWaiters {f : c.Fut} (hm : FutMove s f s')
    (h : s.waitersLock = some (.fut f) → (s.fut f).pc.inWaiters)
    (hl : s'.waitersLock = some (.fut f)) : (s'.fut f).pc.inWaiters := by
  cases hm <;> simp_all [FutPc.inWaiters]

theorem WrkMove.heldWaiters {k : Fin c.threads} (hm : WrkMove s k s')
    (h : s.waitersLock = some (.wrk k) → (s.wrk k).inWaiters)
    (hl : s'.waitersLock = some (.wrk k)) : (s'.wrk k).inWaiters := by
  cases hm <;> simp_all [WrkPc.inWaiters]

/-- An operation keeps `Held`: the other parties stay where they are. -/
theorem Held.move (h : Held s) (hi' : Inv s') (hm : Move s s') : Held s' := by
  obtain ⟨-, sit, ho⟩ := hi'
  cases hm with
  | fut f hm =>
    -- A worker that is started was in no critical section.
    have hwrk : ∀ k i, (s.wrk k).inSlot = some i → (s'.wrk k).inSlot = some i := by
      intro k i hk
      rcases hm.wrk k with he | ⟨hoff, -⟩
      · rwa [he]
      · rw [hoff] at hk
        cases hk
    have hwaits : ∀ k, (s.wrk k).inWaiters → (s'.wrk k).inWaiters := by
      intro k hk
      rcases hm.wrk k with he | ⟨hoff, -⟩
      · rwa [he]
      · rw [hoff] at hk
        exact hk.elim
    refine ⟨fun i p hp => ?_, fun p hp => ?_⟩
    · by_cases hpf : p = .fut f
      · subst hpf
        exact hm.heldSlot (h.slot i _) hp
      · have hbefore := h.slot i p ((hm.slotLock i).other_before hpf hp)
        cases p with
        | fut g =>
          have hg : g ≠ f := fun he => hpf (he ▸ rfl)
          show (s'.fut g).pc.inSlot = some i
          rwa [hm.fut_of_ne hg]
        | wrk k => exact hwrk k i hbefore
    · by_cases hpf : p = .fut f
      · subst hpf
        exact hm.heldWaiters (h.waiters _) hp
      · have hbefore := h.waiters p (hm.waitersLock.other_before hpf hp)
        cases p with
        | fut g =>
          have hg : g ≠ f := fun he => hpf (he ▸ rfl)
          show (s'.fut g).pc.inWaiters
          rwa [hm.fut_of_ne hg]
        | wrk k => exact hwaits k hbefore
  | wrk k hm =>
    refine ⟨fun i p hp => ?_, fun p hp => ?_⟩
    · by_cases hpk : p = .wrk k
      · subst hpk
        exact hm.heldSlot (ho.wrk k) (h.slot i _) hp
      · have hbefore := h.slot i p ((hm.slotLock i).other_before hpk hp)
        cases p with
        | fut g =>
          show (s'.fut g).pc.inSlot = some i
          rwa [(hm.fut g).1]
        | wrk l =>
          have hl : l ≠ k := fun he => hpk (he ▸ rfl)
          show (s'.wrk l).inSlot = some i
          rwa [hm.wrk_of_ne hl]
    · by_cases hpk : p = .wrk k
      · subst hpk
        exact hm.heldWaiters (h.waiters _) hp
      · have hbefore := h.waiters p (hm.waitersLock.other_before hpk hp)
        cases p with
        | fut g =>
          show (s'.fut g).pc.inWaiters
          rwa [(hm.fut g).1]
        | wrk l =>
          have hl : l ≠ k := fun he => hpk (he ▸ rfl)
          show (s'.wrk l).inWaiters
          rwa [hm.wrk_of_ne hl]

/-- `Held` holds in every reachable state. -/
theorem Held.of_reachable (h : (pool c).Reachable s) : Held s := by
  refine (h.invariant (I := fun s => Inv s ∧ Held s) ⟨Inv.of_reachable .start, ?_⟩ ?_).2
  · constructor <;> simp [pool, init, Slot.new]
  · rintro s a s' ⟨hi, hh⟩ hs
    have hm := Move.of_step hs
    exact ⟨hi.move hm, hh.move (hi.move hm) hm⟩

/-! ## The start of the workers -/

/-- The first poll of a future is past the test of `STARTED`. -/
def FutPc.launched : FutPc c → Prop
  | .submit _ _ (.startWorker _) => True
  | .submit _ _ .storeQueued => True
  | .submit _ _ .send => True
  | _ => False

/-- The next worker that the first poll of a future starts. -/
def FutPc.starts : FutPc c → Option Nat
  | .submit _ _ (.startWorker k) => some k
  | _ => none

/-- The workers are started before anything is queued. -/
structure Starting (s : St c) : Prop where
  launched : ∀ f, (s.fut f).pc.launched → s.started = true
  queued : s.queue ≠ [] → s.started = true
  /-- A worker that is not started yet will be. -/
  starts : s.started = true → ∀ k, s.wrk k = .off → ∃ f n, (s.fut f).pc.starts = some n ∧ n ≤ k

/-- The operation of a first poll that starts workers: it starts the next one, or there is none. -/
theorem startWorker_step {f : c.Fut} {n : Nat} (hn : (s.fut f).pc.starts = some n)
    (hs : s.futStep f = some s') :
    c.threads ≤ n ∨
      (s'.fut f).pc.starts = some (n + 1) ∧ ∀ k : Fin c.threads, k = n → s'.wrk k ≠ .off := by
  unfold FutPc.starts at hn
  split at hn
  · rename_i w i k hpc
    cases hn
    simp only [St.futStep, hpc, St.submitStep] at hs
    split at hs
    · rename_i hlt
      refine .inr ?_
      simp only [St.startWorker] at hs
      split at hs
      · cases hs
        refine ⟨by simp [FutPc.starts], fun l hl => ?_⟩
        have hl' : l = ⟨n, hlt⟩ := Fin.ext hl
        simp [hl']
      · rename_i hon
        cases hs
        refine ⟨by simp [FutPc.starts], fun l hl => ?_⟩
        have hl' : l = ⟨n, hlt⟩ := Fin.ext hl
        rw [hl']
        exact hon
    · exact .inl (by omega)
  · cases hn

/-- An operation of a future leaves `STARTED`, except that the first of all sets it. -/
theorem FutMove.started {f : c.Fut} (hm : FutMove s f s') :
    s'.started = s.started ∨ s'.started = true ∧ (s'.fut f).pc.starts = some 0 := by
  cases hm with
  | startOnce hpc hstarted => exact .inr ⟨rfl, by simp [FutPc.starts]⟩
  | _ => exact .inl rfl

theorem FutMove.launched {f : c.Fut} (hm : FutMove s f s') (h : (s'.fut f).pc.launched) :
    s'.started = true ∨ (s.fut f).pc.launched := by
  cases hm <;> simp_all [FutPc.launched]

/-- Only the end of a first poll makes the queue longer. -/
theorem FutMove.queue {f : c.Fut} (hm : FutMove s f s') :
    (s.fut f).pc.launched ∨ (s'.queue ≠ [] → s.queue ≠ []) := by
  cases hm with
  | send hpc => exact .inl (by simp [hpc, FutPc.launched])
  | @cancelRemoved i hpc hmem => exact .inr fun _ => List.ne_nil_of_mem hmem
  | _ => exact .inr id

theorem Starting.futMove {f : c.Fut} (h : Starting s) (hm : FutMove s f s')
    (hstart : ∀ n, (s.fut f).pc.starts = some n → c.threads ≤ n ∨
      (s'.fut f).pc.starts = some (n + 1) ∧ ∀ k : Fin c.threads, k = n → s'.wrk k ≠ .off) :
    Starting s' := by
  have hmono : s.started = true → s'.started = true := by
    intro hs
    rcases hm.started with he | ⟨he, -⟩
    · rwa [he]
    · exact he
  refine ⟨fun g hg => ?_, fun hq => ?_, fun hs k hk => ?_⟩
  · by_cases hgf : g = f
    · subst hgf
      rcases hm.launched hg with hs | hl
      · exact hs
      · exact hmono (h.launched g hl)
    · rw [hm.fut_of_ne hgf] at hg
      exact hmono (h.launched g hg)
  · rcases hm.queue with hl | hq'
    · exact hmono (h.launched f hl)
    · exact hmono (h.queued (hq' hq))
  · rcases hm.started with he | ⟨-, hfirst⟩
    · have hoff : s.wrk k = .off := by
        rcases hm.wrk k with hw | ⟨-, hw⟩
        · rwa [← hw]
        · rw [hw] at hk
          cases hk
      obtain ⟨g, n, hn, hle⟩ := h.starts (he ▸ hs) k hoff
      by_cases hgf : g = f
      · subst hgf
        rcases hstart n hn with hend | ⟨hnext, hon⟩
        · -- There is no worker after the last one.
          have hlt := k.isLt
          omega
        · have hne : (k : Nat) ≠ n := fun hkn => hon k hkn hk
          exact ⟨g, n + 1, hnext, by omega⟩
      · refine ⟨g, n, ?_, hle⟩
        rwa [hm.fut_of_ne hgf]
    · exact ⟨f, 0, hfirst, Nat.zero_le _⟩

theorem Starting.wrkMove {k : Fin c.threads} (h : Starting s) (hm : WrkMove s k s') :
    Starting s' := by
  have hstarted : s'.started = s.started := by cases hm <;> rfl
  have hqueue : s'.queue ≠ [] → s.queue ≠ [] := by
    cases hm with
    | recv hpc hqueue =>
      rw [hqueue]
      exact fun _ => List.cons_ne_nil _ _
    | _ => exact id
  have hoff : ∀ l, s'.wrk l = .off → s.wrk l = .off := by
    intro l hl
    by_cases hlk : l = k
    · subst hlk
      cases hm <;> simp at hl
    · rwa [hm.wrk_of_ne hlk] at hl
  refine ⟨fun g hg => ?_, fun hq => ?_, fun hs l hl => ?_⟩
  · rw [(hm.fut g).1] at hg
    exact hstarted.trans (h.launched g hg)
  · exact hstarted.trans (h.queued (hqueue hq))
  · obtain ⟨g, n, hn, hle⟩ := h.starts (hstarted ▸ hs) l (hoff l hl)
    exact ⟨g, n, by rwa [(hm.fut g).1], hle⟩

/-- A poll starts between polls. -/
theorem idle_of_poll {f : c.Fut} {w : c.Waker} (h : s.poll f w = some s') :
    (s.fut f).pc = .idle := by
  unfold St.poll at h
  split at h
  · assumption
  · assumption
  · cases h

/-- A drop starts between polls. -/
theorem idle_of_drop {f : c.Fut} (h : s.drop f = some s') : (s.fut f).pc = .idle := by
  unfold St.drop at h
  split at h
  · assumption
  · assumption
  · cases h

/-- `Starting` holds in every reachable state. -/
theorem Starting.of_reachable (h : (pool c).Reachable s) : Starting s := by
  refine h.invariant ?_ fun s a s' hi hs => ?_
  · constructor <;> simp [pool, init, Future.new, FutPc.launched, Queue.new]
  · have hidle : ∀ f n, (s.fut f).pc = .idle → (s.fut f).pc.starts ≠ some n := by
      intro f n hf
      rw [hf]
      exact (Option.some_ne_none n).symm
    cases a with
    | poll f w => exact hi.futMove (.of_poll hs) fun n hn => absurd hn (hidle f n (idle_of_poll hs))
    | drop f => exact hi.futMove (.of_drop hs) fun n hn => absurd hn (hidle f n (idle_of_drop hs))
    | fut f => exact hi.futMove (.of_futStep hs) fun n hn => startWorker_step hn hs
    | wrk k v => exact hi.wrkMove (.of_wrkStep hs)

/-! ## The work in progress -/

/-- The action continues a poll, a drop or the loop of a worker. -/
def Act.continues : Act c → Prop
  | .poll _ _ => False
  | .drop _ => False
  | .fut _ => True
  | .wrk _ _ => True

/-- The operations of a release that are left, at most. -/
def ReleasePc.work : ReleasePc c → Nat
  | .store _ => 4
  | .lock => 3
  | .wake => 2
  | .unlock => 1

/-- The operations that a worker performs for a slot in the queue, at most. -/
def slotWork : Nat := 18

/-- The operations of a worker that are left until it is back at `QUEUE.recv`, at most. -/
def WrkPc.work : WrkPc c → Nat
  | .runner _ => 17
  | .take _ _ .lock => 16
  | .take _ _ .load => 15
  | .take _ _ .shared => 14
  | .take _ _ (.op _) => 13
  | .take _ _ (.unlock _) => 12
  | .exec _ _ _ => 11
  | .finish _ _ _ _ .lock => 10
  | .finish _ _ _ _ .load => 9
  | .finish _ _ _ _ .shared => 8
  | .finish _ _ _ _ (.result _) => 7
  | .finish _ _ _ _ .store => 6
  | .finish _ _ _ _ (.unlock _) => 5
  | .wake _ _ => 1
  | .release p => p.work
  | _ => 0

/-- The operations of a poll or a drop that are left, at most, with those of a worker for the slot
that it sends. -/
def FutPc.work : FutPc c → Nat
  | .claim _ .lock => 30 + c.threads + c.slots
  | .claim _ (.scan i) => 29 + c.threads + (c.slots - i)
  | .claim _ .register => 28 + c.threads
  | .claim _ (.unlock _) => 27 + c.threads
  | .submit _ _ .setSlot => 26 + c.threads
  | .submit _ _ .register => 25 + c.threads
  | .submit _ _ .setShared => 24 + c.threads
  | .submit _ _ .setRunner => 23 + c.threads
  | .submit _ _ .startOnce => 22 + c.threads
  | .submit _ _ (.startWorker k) => 21 + (c.threads - k)
  | .submit _ _ .storeQueued => 20
  | .submit _ _ .send => 19
  | .register _ _ => 8
  | .load _ => 7
  | .takeResult _ => 6
  | .clearSlot _ _ => 5
  | .ready _ p => p.work
  | .cancel _ .remove => 11
  | .cancel _ .lock => 10
  | .cancel _ .load => 9
  | .cancel _ .clear => 8
  | .cancel _ .store => 7
  | .cancel _ (.unlock _) => 6
  | .discard _ p => p.work
  | _ => 0

/-- An operation inside a poll or a drop lowers the work. -/
theorem FutMove.work {f : c.Fut} (hm : FutMove s f s') (hpc : (s.fut f).pc ≠ .idle) :
    (s'.fut f).pc.work + slotWork * s'.queue.length <
      (s.fut f).pc.work + slotWork * s.queue.length := by
  cases hm with
  | pollFirst hidle | pollAgain hidle | dropUnclaimed hidle | dropClaimed hidle =>
    exact absurd hidle hpc
  | @startWorker w i k h | @startRunning w i k h =>
    have hk := k.isLt
    simp [h, FutPc.work]
    omega
  | @claimSkip w i h =>
    have hi := i.isLt
    simp [h, FutPc.work]
    omega
  | @send w i h =>
    simp [h, FutPc.work, Queue.send, slotWork]
    omega
  | @cancelRemoved i h hmem =>
    have hlen := List.length_erase_of_mem hmem
    simp [h, FutPc.work, ReleasePc.work, slotWork, hlen]
    omega
  | _ =>
    simp_all [FutPc.work, ReleasePc.work]
    try omega

/-- An operation of a worker lowers the work. -/
theorem WrkMove.work {k : Fin c.threads} (hm : WrkMove s k s') :
    (s'.wrk k).work + slotWork * s'.queue.length < (s.wrk k).work + slotWork * s.queue.length := by
  cases hm with
  | @recv i rest h hqueue =>
    simp [h, hqueue, WrkPc.work, slotWork]
    omega
  | _ => simp_all [WrkPc.work, ReleasePc.work]

/-- All polls and drops under way are those of the futures in `A`. -/
def Busy (A : Finset c.Fut) (s : St c) : Prop := ∀ f ∉ A, (s.fut f).pc = .idle

/-- The work that is left, when the polls and drops under way are those of `A`. -/
def work (A : Finset c.Fut) (s : St c) : Nat :=
  ∑ f ∈ A, (s.fut f).pc.work + ∑ k, (s.wrk k).work + slotWork * s.queue.length

/-- Only finitely many futures are in a poll or a drop. -/
theorem exists_busy (h : (pool c).Reachable s) : ∃ A, Busy A s := by
  refine h.invariant (I := fun s => ∃ A, Busy A s) ⟨∅, fun f _ => rfl⟩ fun s a s' hA hs => ?_
  obtain ⟨A, hA⟩ := hA
  cases Move.of_step hs with
  | fut f hm =>
    refine ⟨insert f A, fun g hg => ?_⟩
    rw [Finset.mem_insert, not_or] at hg
    rw [hm.fut_of_ne hg.1]
    exact hA g hg.2
  | wrk k hm =>
    refine ⟨A, fun g hg => ?_⟩
    rw [(hm.fut g).1]
    exact hA g hg

/-- An idle future has no operation that it could go on with. -/
theorem ne_idle_of_futStep {f : c.Fut} (h : s.futStep f = some s') : (s.fut f).pc ≠ .idle := by
  intro hpc
  simp only [St.futStep, hpc] at h
  cases h

/-- A step inside a poll, a drop or the loop of a worker lowers the work. -/
theorem lowers_work (A : Finset c.Fut) :
    (pool c).Lowers (fun _ a => a.continues) (Busy A) (work A) where
  keeps s a s' hA ha hs g hg := by
    cases a with
    | poll | drop => exact ha.elim
    | fut f =>
      have hgf : g ≠ f := by
        rintro rfl
        exact ne_idle_of_futStep hs (hA g hg)
      rw [(FutMove.of_futStep hs).fut_of_ne hgf]
      exact hA g hg
    | wrk k v =>
      rw [((WrkMove.of_wrkStep hs).fut g).1]
      exact hA g hg
  lowers s a s' hA ha hs := by
    unfold work
    cases a with
    | poll | drop => exact ha.elim
    | fut f =>
      have hm := FutMove.of_futStep hs
      have hpc := ne_idle_of_futStep hs
      have hf : f ∈ A := by
        by_contra hf
        exact hpc (hA f hf)
      have hfut := Lib.sum_of_eq_off (F := fun g => (s.fut g).pc.work)
        (G := fun g => (s'.fut g).pc.work) hf fun g hg => by rw [hm.fut_of_ne hg]
      -- A worker that is started has no work yet.
      have hwrk : ∑ k, (s'.wrk k).work = ∑ k, (s.wrk k).work := by
        refine Finset.sum_congr rfl fun k _ => ?_
        rcases hm.wrk k with he | ⟨hoff, hrecv⟩
        · rw [he]
        · rw [hoff, hrecv]
          rfl
      have hlt := hm.work hpc
      omega
    | wrk k v =>
      have hm := WrkMove.of_wrkStep hs
      have hfut : ∑ f ∈ A, (s'.fut f).pc.work = ∑ f ∈ A, (s.fut f).pc.work :=
        Finset.sum_congr rfl fun f _ => by rw [(hm.fut f).1]
      have hwrk := Lib.sum_of_eq_off (F := fun l => (s.wrk l).work)
        (G := fun l => (s'.wrk l).work) (Finset.mem_univ k) fun l hl => by rw [hm.wrk_of_ne hl]
      have hlt := hm.work
      omega

/-! ## At rest -/

/-- A poll or a drop that is at its end, or waits for a lock that is held. -/
inductive FutPc.Stays (s : St c) : FutPc c → Prop
  | idle : Stays s .idle
  | dropped : Stays s .dropped
  | panicked : Stays s .panicked
  | claim {w : c.Waker} (hl : s.waitersLock ≠ none) : Stays s (.claim w .lock)
  | ready {v : c.Val} (hl : s.waitersLock ≠ none) : Stays s (.ready v .lock)
  | discard {b : Bool} (hl : s.waitersLock ≠ none) : Stays s (.discard b .lock)
  | cancel {i : Fin c.slots} (hl : (s.slots i).lock ≠ none) : Stays s (.cancel i .lock)

/-- A worker that waits for a slot to work on, or for a lock that is held. -/
inductive WrkPc.Stays (s : St c) : WrkPc c → Prop
  | off : Stays s .off
  | recv (hqueue : s.queue = []) : Stays s .recv
  | take {t : c.Ty} {i : Fin c.slots} (hl : (s.slots i).lock ≠ none) : Stays s (.take t i .lock)
  | finish {t : c.Ty} {i : Fin c.slots} {op : c.Fut} {v : c.Val}
      (hl : (s.slots i).lock ≠ none) : Stays s (.finish t i op v .lock)
  | release (hl : s.waitersLock ≠ none) : Stays s (.release .lock)
  | panicked : Stays s .panicked
  | fault : Stays s .fault

/-- A future that cannot step. -/
theorem FutPc.Stays.of_futStep {f : c.Fut} (h : s.futStep f = none) :
    (s.fut f).pc.Stays s := by
  unfold St.futStep at h
  cases hpc : (s.fut f).pc with
  | idle => exact .idle
  | dropped => exact .dropped
  | panicked => exact .panicked
  | claim w p =>
    rw [hpc] at h
    cases p with
    | lock =>
      refine .claim fun hl => ?_
      simp only [St.claimStep, hl] at h
      cases h
    | scan i =>
      simp only [St.claimStep] at h
      split at h
      · split at h <;> cases h
      · cases h
    | register => cases h
    | unlock r => cases r <;> cases h
  | ready v p =>
    rw [hpc] at h
    cases p with
    | lock =>
      refine .ready fun hl => ?_
      simp only [St.releaseStep, hl] at h
      cases h
    | store i | wake | unlock => cases h
  | discard b p =>
    rw [hpc] at h
    cases p with
    | lock =>
      refine .discard fun hl => ?_
      simp only [St.releaseStep, hl] at h
      cases h
    | store i | wake | unlock => cases h
  | cancel i p =>
    rw [hpc] at h
    cases p with
    | lock =>
      refine .cancel fun hl => ?_
      simp only [St.cancelStep, hl] at h
      cases h
    | remove | load =>
      simp only [St.cancelStep] at h
      split at h <;> cases h
    | clear | store => cases h
    | unlock b => cases b <;> cases h
  | load i | takeResult i =>
    rw [hpc] at h
    simp only at h
    split at h <;> cases h
  | submit | register | clearSlot =>
    rw [hpc] at h
    cases h

/-- A worker that cannot step. -/
theorem WrkPc.Stays.of_wrkStep {k : Fin c.threads} {v : c.Val} (h : s.wrkStep k v = none) :
    (s.wrk k).Stays s := by
  unfold St.wrkStep at h
  cases hpc : s.wrk k with
  | off => exact .off
  | panicked => exact .panicked
  | fault => exact .fault
  | recv =>
    rw [hpc] at h
    simp only at h
    split at h
    · rename_i hqueue
      exact .recv (Queue.recv_eq_none.mp hqueue)
    · cases h
  | take t i p =>
    rw [hpc] at h
    cases p with
    | lock =>
      refine .take fun hl => ?_
      simp only [St.takeStep, hl] at h
      cases h
    | load | op =>
      simp only [St.takeStep] at h
      split at h <;> cases h
    | shared => cases h
    | unlock op => cases op <;> cases h
  | finish t i op u p =>
    rw [hpc] at h
    cases p with
    | lock =>
      refine .finish fun hl => ?_
      simp only [St.finishStep, hl] at h
      cases h
    | load | result =>
      simp only [St.finishStep] at h
      split at h <;> cases h
    | shared | store => cases h
    | unlock b => cases b <;> cases h
  | release p =>
    rw [hpc] at h
    cases p with
    | lock =>
      refine .release fun hl => ?_
      simp only [St.releaseStep, hl] at h
      cases h
    | store i | wake | unlock => cases h
  | runner i =>
    rw [hpc] at h
    simp only at h
    split at h <;> cases h
  | exec | wake =>
    rw [hpc] at h
    cases h

/-- Who cannot step is in no critical section. -/
theorem FutPc.Stays.outside {p : FutPc c} (h : p.Stays s) :
    (∀ i, p.inSlot ≠ some i) ∧ ¬p.inWaiters := by
  cases h <;> exact ⟨fun i => (Option.some_ne_none i).symm, id⟩

theorem WrkPc.Stays.outside {p : WrkPc c} (h : p.Stays s) :
    (∀ i, p.inSlot ≠ some i) ∧ ¬p.inWaiters := by
  cases h <;> exact ⟨fun i => (Option.some_ne_none i).symm, id⟩

/-- No poll, drop or worker can go on. -/
def Resting (s : St c) : Prop := (pool c).Stuck (fun _ a => a.continues) s

/-- When nobody can go on, no lock is held: its holder could. -/
theorem Resting.unlocked (h : Resting s) (hh : Held s) (v : c.Val) :
    s.waitersLock = none ∧ ∀ i, (s.slots i).lock = none := by
  have hfut : ∀ f, (s.fut f).pc.Stays s := fun f => .of_futStep (h (.fut f) trivial)
  have hwrk : ∀ k, (s.wrk k).Stays s := fun k => .of_wrkStep (h (.wrk k v) trivial)
  constructor
  · by_contra hne
    obtain ⟨p, hp⟩ := Option.ne_none_iff_exists'.mp hne
    have hin := hh.waiters p hp
    cases p with
    | fut f => exact (hfut f).outside.2 hin
    | wrk k => exact (hwrk k).outside.2 hin
  · intro i
    by_contra hne
    obtain ⟨p, hp⟩ := Option.ne_none_iff_exists'.mp hne
    have hin := hh.slot i p hp
    cases p with
    | fut f => exact (hfut f).outside.1 i hin
    | wrk k => exact (hwrk k).outside.1 i hin

/-- A pool in which nobody can go on. -/
structure AtRest (s : St c) : Prop where
  waitersLock : s.waitersLock = none
  lock : ∀ i, (s.slots i).lock = none
  queue : s.queue = []
  fut : ∀ f, (s.fut f).pc = .idle ∨ (s.fut f).pc = .dropped
  /-- The workers wait for a slot, or the first slot of all has not been sent yet. -/
  wrk : ∀ k, s.wrk k = .recv ∨ s.wrk k = .off ∧ s.started = false
  /-- A slot is free, or it has the result of an idle future, whose task was woken. -/
  slot : ∀ i, (s.slots i).state = .free ∨ (s.slots i).state = .done ∧
    ∃ f, (s.fut f).pc = .idle ∧ (s.fut f).slot = some i ∧ (s.fut f).result ≠ none ∧
      (s.obs f).woken = true
  /-- A task that waits for a slot was woken when there is a free one. -/
  waiting : ∀ f i, (s.obs f).waiting = true → (s.slots i).state = .free →
    (s.obs f).woken = true

/-- At rest each poll and each drop is at its end. -/
theorem Resting.fut (h : Resting s) (hi : Inv s) (hh : Held s) (v : c.Val) (f : c.Fut) :
    (s.fut f).pc = .idle ∨ (s.fut f).pc = .dropped := by
  obtain ⟨hw, hl⟩ := h.unlocked hh v
  obtain ⟨-, sit, ho⟩ := hi
  have hok : FutOk f (s.fut f) := ho.fut f
  have hstays : (s.fut f).pc.Stays s := .of_futStep (h (.fut f) trivial)
  unfold FutOk at hok
  generalize (s.fut f).pc = p at hstays hok ⊢
  cases hstays with
  | idle => exact .inl rfl
  | dropped => exact .inr rfl
  | panicked => exact hok.elim
  | claim hne | ready hne | discard hne => exact absurd hw hne
  | @cancel i hne => exact absurd (hl i) hne

/-- At rest each worker waits for a slot. -/
theorem Resting.wrk (h : Resting s) (hi : Inv s) (hh : Held s) (v : c.Val) (k : Fin c.threads) :
    s.wrk k = .off ∨ s.wrk k = .recv ∧ s.queue = [] := by
  obtain ⟨hw, hl⟩ := h.unlocked hh v
  obtain ⟨-, sit, ho⟩ := hi
  have hok : WrkOk (s.wrk k) := ho.wrk k
  have hstays : (s.wrk k).Stays s := .of_wrkStep (h (.wrk k v) trivial)
  generalize s.wrk k = p at hstays hok ⊢
  cases hstays with
  | off => exact .inl rfl
  | recv hqueue => exact .inr ⟨rfl, hqueue⟩
  | panicked | fault => exact hok.elim
  | @take t i hne | @finish t i op u hne => exact absurd (hl i) hne
  | release hne => exact absurd hw hne

/-- A slot that is in no hand and not queued is free, or it has the result of its owner. -/
theorem free_or_done {sit : Fin c.slots → Situation c} (ho : Owned s sit)
    (hfut : ∀ f, (s.fut f).pc = .idle ∨ (s.fut f).pc = .dropped)
    (hwrk : ∀ k, s.wrk k = .off ∨ s.wrk k = .recv) (hqueue : s.queue = []) (i : Fin c.slots) :
    (s.slots i).state = .free ∨ (s.slots i).state = .done ∧
      ∃ f, (s.fut f).pc = .idle ∧ (s.fut f).slot = some i ∧ (s.fut f).result ≠ none := by
  have hslot := ho.slot i
  cases hsit : sit i with
  | free =>
    rw [hsit] at hslot
    exact .inl hslot.1
  | claimed f =>
    rw [hsit] at hslot
    obtain ⟨-, -, -, -, hpc⟩ := hslot
    rcases hfut f with hf | hf
    all_goals
      rw [hf] at hpc
      exact hpc.elim
  | sending f =>
    rw [hsit] at hslot
    obtain ⟨-, -, -, -, w, hpc⟩ := hslot
    rcases hfut f with hf | hf <;> cases hf.symm.trans hpc
  | queued f =>
    rw [hsit] at hslot
    have hmem := hslot.2.1
    rw [hqueue] at hmem
    cases hmem
  | removed f =>
    rw [hsit] at hslot
    obtain ⟨-, -, -, hpc⟩ := hslot
    rcases hfut f with hf | hf <;> cases hf.symm.trans hpc
  | running f k =>
    rw [hsit] at hslot
    obtain ⟨-, -, -, -, hworking⟩ := hslot
    rcases hwrk k with hk | hk
    all_goals
      rw [hk] at hworking
      exact hworking.elim
  | orphaned k =>
    rw [hsit] at hslot
    obtain ⟨-, -, habandoned⟩ := hslot
    rcases hwrk k with hk | hk
    all_goals
      rw [hk] at habandoned
      exact habandoned.elim
  | done f =>
    rw [hsit] at hslot
    obtain ⟨hstate, -, -, hcollect⟩ := hslot
    refine .inr ⟨hstate, f, ?_⟩
    rcases hcollect with ⟨⟨hslot, hpc⟩, u, hresult, -⟩ | hpc
    · rcases hfut f with hf | hf
      · exact ⟨hf, hslot, hresult ▸ Option.some_ne_none u⟩
      · rw [hf] at hpc
        exact hpc.elim
    · rcases hfut f with hf | hf
      all_goals
        rw [hf] at hpc
        exact hpc.elim

/-- A pool in which nobody can go on is at rest. -/
theorem AtRest.of_resting (hthreads : 0 < c.threads) (hr : (pool c).Reachable s)
    (h : Resting s) (v : c.Val) : AtRest s := by
  have hi := Inv.of_reachable hr
  have hh := Held.of_reachable hr
  have hstart := Starting.of_reachable hr
  obtain ⟨hw, hl⟩ := h.unlocked hh v
  have hfut := h.fut hi hh v
  -- No first poll is under way that could start a worker.
  have hon : s.started = true → ∀ k, s.wrk k ≠ .off := by
    intro hs k hk
    obtain ⟨f, n, hn, -⟩ := hstart.starts hs k hk
    rcases hfut f with hf | hf
    all_goals
      rw [hf] at hn
      cases hn
  have hwrk : ∀ k, s.wrk k = .recv ∨ s.wrk k = .off ∧ s.started = false := by
    intro k
    rcases h.wrk hi hh v k with hoff | ⟨hrecv, -⟩
    · exact .inr ⟨hoff, Bool.eq_false_iff.mpr fun hs => hon hs k hoff⟩
    · exact .inl hrecv
  have hqueue : s.queue = [] := by
    by_contra hne
    rcases h.wrk hi hh v ⟨0, hthreads⟩ with hoff | ⟨-, hqueue⟩
    · exact hon (hstart.queued hne) _ hoff
    · exact hne hqueue
  obtain ⟨-, sit, ho⟩ := hi
  have hidle : ∀ k, s.wrk k = .off ∨ s.wrk k = .recv := fun k =>
    (hwrk k).symm.imp_left And.left
  refine ⟨hw, hl, hqueue, hfut, hwrk, fun i => ?_, fun f i hwait hfree => ?_⟩
  · rcases free_or_done ho hfut hidle hqueue i with hfree | ⟨hdone, f, hpc, hslot, hresult⟩
    · exact .inl hfree
    · refine .inr ⟨hdone, f, hpc, hslot, hresult, ?_⟩
      have hpends : (s.fut f).pends i := by
        unfold Future.pends
        rw [hpc]
        exact hslot
      rcases completed_task_is_woken hr f i hpends hdone with hwoken | ⟨k, hk⟩
      · exact hwoken
      · rcases hidle k with hoff | hrecv
        · rw [hoff] at hk
          exact hk.elim
        · rw [hrecv] at hk
          exact hk.elim
  · by_contra hne
    have hnot : (s.obs f).woken = false := Bool.eq_false_iff.mpr hne
    rcases (waiting_task_is_woken hr f hwait hnot).2 ⟨i, hfree⟩ with ⟨g, hg⟩ | ⟨k, hk⟩
    · rcases hfut g with hf | hf
      all_goals
        rw [hf] at hg
        exact hg.elim
    · rcases hidle k with hoff | hrecv
      · rw [hoff] at hk
        exact hk.elim
      · rw [hrecv] at hk
        exact hk.elim

/-- The blocking pool comes to rest, in every state of every run. When no poll and no drop begins
any more, then whatever the order of the steps is, they are bounded in number, and as long as the
pool is not at rest some poll, drop or worker can go on. -/
theorem pool_comes_to_rest (hthreads : 0 < c.threads) (v : c.Val) (hr : (pool c).Reachable s) :
    (∃ n, ∀ m s', (pool c).StepsWhen (fun _ a => a.continues) s m s' → m ≤ n) ∧
    ∀ s', (pool c).LaterWhen (fun _ a => a.continues) s s' →
      AtRest s' ∨ ∃ a s'', a.continues ∧ (pool c).step s' a = some s'' := by
  obtain ⟨A, hA⟩ := exists_busy hr
  refine ⟨⟨work A s, fun m s' hs => hs.le_of_measure (lowers_work A) hA⟩, fun s' hl => ?_⟩
  by_cases hrest : Resting s'
  · exact .inl (.of_resting hthreads (hl.reachable hr) hrest v)
  · simp only [Resting, System.Stuck, not_forall] at hrest
    obtain ⟨a, ha, hs⟩ := hrest
    obtain ⟨s'', hs⟩ := Option.ne_none_iff_exists'.mp hs
    exact .inr ⟨a, s'', ha, hs⟩

/-- The worker of a pool with one slot has stored `Done`, and a second future is in its claim. -/
theorem pool_comes_to_rest_single :
    ∃ s, (pool .single).Reachable s ∧ (s.slots 0).state = .done ∧
      ∃ n, ∀ m s', (pool .single).StepsWhen (fun _ a => a.continues) s m s' → m ≤ n := by
  obtain ⟨s, hr, hs⟩ := (pool .single).reachable_of_exec
    (.poll 0 0 :: (List.replicate 12 (.fut 0) ++ .poll 1 1 :: List.replicate 2 (.fut 1) ++
      List.replicate 14 (.wrk 0 7)))
    (fun s => decide ((s.slots 0).state = .done)) rfl
  exact ⟨s, hr, of_decide_eq_true hs, (pool_comes_to_rest Nat.one_pos (show Nat from 7) hr).1⟩

end ZephyrRust.Blocking
