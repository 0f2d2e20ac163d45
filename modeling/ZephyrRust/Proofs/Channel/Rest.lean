import Mathlib.Algebra.Order.BigOperators.Group.Finset
import ZephyrRust.Lib.Progress
import ZephyrRust.Proofs.Channel.Fifo

/-!
# `ZephyrRust.Proofs.Channel.Rest`: who waits on a bounded channel

Suppose that no call begins any more. Then the calls under way come to an end, up to those that wait
with `Forever`. A send waits only when `cap` messages are queued, and a receive only when none is
(`AtRest`). So no sender waits while a receiver waits, and no slot is lost on the way.

A thread has at most three operations of a call to go (`Pc.work`), and only `free.recv` and
`chan.recv` wait. At rest no slot is in a hand, so a free list that is empty means that all slots
are in `chan`.
-/

set_option autoImplicit false

namespace ZephyrRust.Channel

open ZephyrRust.Lib (System)
open ZephyrRust.Sys (Queue)

variable {Tid T : Type} {cap : Nat} {s s' : St Tid T cap} {t : Tid}

/-! ## The work in progress -/

/-- The operations of a call that are left, at most. -/
def Pc.work : Pc T cap → Nat
  | .freeRecv _ _ => 3
  | .write _ _ => 2
  | .chanSend _ _ => 1
  | .chanRecv _ => 3
  | .read _ => 2
  | .freeSend _ _ => 1
  | _ => 0

/-- All calls under way are those of the threads in `A`. -/
def Busy (A : Finset Tid) (s : St Tid T cap) : Prop := ∀ t ∉ A, s.atRest t = true

/-- The operations that are left, when the calls under way are those of `A`. -/
def work (A : Finset Tid) (s : St Tid T cap) : Nat := ∑ t ∈ A, (s.pc t).work

variable [DecidableEq Tid] {ch : Bounded T cap}

/-- The next operation of a call. -/
theorem Move.work (hm : Move s t s') (hs : s.atRest t = false) :
    (s'.pc t).work < (s.pc t).work := by
  cases hm with
  | sendCall hrest | recvCall hrest =>
    rw [hrest] at hs
    cases hs
  | freeRecv hpc | sendFail hpc | write hpc | chanSend hpc | chanRecv hpc | recvFail hpc
  | read hpc | readFault hpc | freeSend hpc =>
    simp [hpc, Pc.work]

/-- Only finitely many threads are in a call. -/
theorem exists_busy (h : (channel Tid ch).Reachable s) : ∃ A, Busy A s := by
  refine h.invariant (I := fun s => ∃ A, Busy A s) ⟨∅, fun t _ => rfl⟩ fun s a s' hA hs => ?_
  obtain ⟨A, hA⟩ := hA
  refine ⟨insert a.tid A, fun t ht => ?_⟩
  rw [Finset.mem_insert, not_or] at ht
  rw [atRest_congr ((Move.of_step hs).pc_of_ne ht.1)]
  exact hA t ht.2

/-- A thread with a next operation is in a call. -/
theorem not_atRest_of_next (hs : s.next t = some s') : s.atRest t = false := by
  by_contra hne
  rw [next_of_atRest (Bool.eq_true_of_not_eq_false hne)] at hs
  cases hs

/-- An operation inside a call lowers the work. -/
theorem lowers_work (A : Finset Tid) :
    (channel Tid ch).Lowers (fun _ a => a.isCall = false) (Busy A) (work A) where
  keeps s a s' hA ha hs t ht := by
    cases a with
    | sendTimeout | recvTimeout => cases ha
    | next u =>
      have hne : t ≠ u := by
        rintro rfl
        have hrest := hA t ht
        rw [not_atRest_of_next hs] at hrest
        cases hrest
      rw [atRest_congr ((Move.of_step hs).pc_of_ne hne)]
      exact hA t ht
  lowers s a s' hA ha hs := by
    cases a with
    | sendTimeout | recvTimeout => cases ha
    | next u =>
      have hm := Move.of_next hs
      have hcall := not_atRest_of_next hs
      have hu : u ∈ A := by
        by_contra hu
        have hrest := hA u hu
        rw [hcall] at hrest
        cases hrest
      have hsum := Lib.sum_of_eq_off (F := fun t => (s.pc t).work) (G := fun t => (s'.pc t).work)
        hu fun t ht => by rw [hm.pc_of_ne ht]
      have hlt := hm.work hcall
      unfold work
      omega

/-! ## At rest -/

/-- The thread waits in a send that does not time out. -/
def Pc.waitsToSend (p : Pc T cap) : Prop := ∃ msg, p = .freeRecv msg .forever

/-- The thread waits in a receive that does not time out. -/
def Pc.waitsToRecv (p : Pc T cap) : Prop := p = .chanRecv .forever

/-- A channel on which no call can go on. -/
structure AtRest (s : St Tid T cap) : Prop where
  waits : ∀ t, s.atRest t = true ∨ (s.pc t).waitsToSend ∨ (s.pc t).waitsToRecv
  /-- A slot is free, or it has a queued message. -/
  slots : s.ch.free.length + (queued s).length = cap
  full : ∀ t, (s.pc t).waitsToSend → (queued s).length = cap
  empty : ∀ t, (s.pc t).waitsToRecv → queued s = []

/-- A thread that cannot go on waits for a slot or for a message. -/
theorem waits_of_next (hsound : s.pc t ≠ .fault) (h : s.next t = none) :
    s.atRest t = true ∨ (s.pc t).waitsToSend ∧ s.ch.free = [] ∨
      (s.pc t).waitsToRecv ∧ s.ch.chan = [] := by
  unfold St.next at h
  unfold St.atRest
  cases hpc : s.pc t with
  | idle | returned => exact .inl rfl
  | fault => exact absurd hpc hsound
  | freeRecv msg timeout =>
    rw [hpc] at h
    simp only at h
    split at h
    · cases h
    · rename_i hempty
      -- Without `Forever` the send fails here.
      split at h
      · rename_i hforever
        subst hforever
        exact .inr (.inl ⟨⟨msg, rfl⟩, Queue.recv_eq_none.mp hempty⟩)
      · cases h
  | chanRecv timeout =>
    rw [hpc] at h
    simp only at h
    split at h
    · cases h
    · rename_i hempty
      split at h
      · rename_i hforever
        subst hforever
        exact .inr (.inr ⟨rfl, Queue.recv_eq_none.mp hempty⟩)
      · cases h
  | read buf =>
    rw [hpc] at h
    simp only at h
    split at h <;> cases h
  | write | chanSend | freeSend =>
    rw [hpc] at h
    cases h

omit [DecidableEq Tid] in
/-- A thread that waits has no slot in its hand. -/
theorem hand_of_waits (h : s.atRest t = true ∨ (s.pc t).waitsToSend ∨ (s.pc t).waitsToRecv) :
    (s.pc t).inHand = false := by
  rcases h with hrest | ⟨msg, hpc⟩ | hpc
  · rw [Pc.inHand, (hands_of_atRest hrest).1, (hands_of_atRest hrest).2]
    rfl
  · rw [hpc]
    rfl
  · rw [hpc]
    rfl

/-- A channel on which no call can go on is at rest. -/
theorem AtRest.of_stuck (hi : Inv s)
    (h : (channel Tid ch).Stuck (fun _ a => a.isCall = false) s) : AtRest s := by
  have hnext : ∀ t, s.atRest t = true ∨ (s.pc t).waitsToSend ∧ s.ch.free = [] ∨
      (s.pc t).waitsToRecv ∧ s.ch.chan = [] := fun t =>
    waits_of_next (hi.fifo.sound t) (h (.next t) rfl)
  have hwaits : ∀ t, s.atRest t = true ∨ (s.pc t).waitsToSend ∨ (s.pc t).waitsToRecv :=
    fun t => (hnext t).imp_right (Or.imp And.left And.left)
  -- No slot is in a hand.
  have hslots : s.ch.free.length + (queued s).length = cap := by
    obtain ⟨n, hn, hcap⟩ := hi.counted
    have hzero : n = 0 := hn.unique (.zero fun t => hand_of_waits (hwaits t))
    rw [length_queued hi.fifo]
    omega
  refine ⟨hwaits, hslots, fun t ht => ?_, fun t ht => ?_⟩
  · obtain ⟨msg, hpc⟩ := ht
    rcases hnext t with hrest | ⟨-, hfree⟩ | ⟨hrecv, -⟩
    · rw [St.atRest, hpc] at hrest
      cases hrest
    · rw [hfree, List.length_nil] at hslots
      omega
    · cases hpc.symm.trans hrecv
  · have hpc : s.pc t = .chanRecv .forever := ht
    rcases hnext t with hrest | ⟨⟨msg, hsend⟩, -⟩ | ⟨-, hchan⟩
    · rw [St.atRest, hpc] at hrest
      cases hrest
    · cases hpc.symm.trans hsend
    · rw [queued, hchan]
      rfl

/-- The calls on a bounded channel come to rest, in every state of every run of any number of
threads. When no call begins any more, then whatever the order of the steps is, they are bounded in
number, and as long as the channel is not at rest some call can go on. At rest no sender waits while
a receiver waits. -/
theorem channel_comes_to_rest (hch : bounded T cap = some ch) (hr : (channel Tid ch).Reachable s) :
    (∃ n, ∀ m s', (channel Tid ch).StepsWhen (fun _ a => a.isCall = false) s m s' → m ≤ n) ∧
    ∀ s', (channel Tid ch).LaterWhen (fun _ a => a.isCall = false) s s' →
      (AtRest s' ∧ ∀ t u, (s'.pc t).waitsToSend → ¬(s'.pc u).waitsToRecv) ∨
      ∃ t s'', (channel Tid ch).step s' (.next t) = some s'' := by
  obtain ⟨A, hA⟩ := exists_busy hr
  refine ⟨⟨work A s, fun m s' hs => hs.le_of_measure (lowers_work A) hA⟩, fun s' hl => ?_⟩
  by_cases hstuck : (channel Tid ch).Stuck (fun _ a => a.isCall = false) s'
  · have hrest := AtRest.of_stuck (Inv.of_reachable hch (hl.reachable hr)) hstuck
    refine .inl ⟨hrest, fun t u hsend hrecv => ?_⟩
    -- The queue would be full and empty, but the capacity is not 0.
    have hfull := hrest.full t hsend
    rw [hrest.empty u hrecv, List.length_nil] at hfull
    rw [bounded, if_pos hfull.symm] at hch
    cases hch
  · simp only [System.Stuck, not_forall] at hstuck
    obtain ⟨act, hact, hs⟩ := hstuck
    obtain ⟨s'', hs⟩ := Option.ne_none_iff_exists'.mp hs
    cases act with
    | sendTimeout | recvTimeout => cases hact
    | next t => exact .inr ⟨t, s'', hs⟩

/-- On a channel with one slot, a sender has written its message while a second one and a receiver
are in their calls. -/
theorem channel_comes_to_rest_one :
    ∃ s, (channel (Fin 3) (Bounded.new Nat 1)).Reachable s ∧ s.ch.slots 0 = some 3 ∧
      ∃ n, ∀ m s', (channel (Fin 3) (Bounded.new Nat 1)).StepsWhen (fun _ a => a.isCall = false)
        s m s' → m ≤ n := by
  obtain ⟨s, hr, hs⟩ := (channel (Fin 3) (Bounded.new Nat 1)).reachable_of_exec
    [.sendTimeout 0 3 .forever, .sendTimeout 1 4 .forever, .recvTimeout 2 .forever, .next 0,
      .next 0]
    (fun s => decide (s.ch.slots 0 = some 3)) rfl
  exact ⟨s, hr, of_decide_eq_true hs, (channel_comes_to_rest rfl hr).1⟩

end ZephyrRust.Channel
