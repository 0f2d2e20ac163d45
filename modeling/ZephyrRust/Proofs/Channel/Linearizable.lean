import ZephyrRust.Lib.Linearizable
import ZephyrRust.Proofs.Channel
import ZephyrRust.Proofs.Channel.Fifo
import ZephyrRust.Proofs.Channel.Unbounded

/-!
# `ZephyrRust.Proofs.Channel.Linearizable`: the channels as atomic queues

`Proofs.Channel.Fifo` looks at one operation at a time. Here the operations overlap as they like.
Whatever the threads see, they could see from a queue on which each `send_timeout` and each
`recv_timeout` takes effect at one moment between its call and its return.

For a send this moment is `chan.send`, and for a receive `chan.recv`: the slot or the box in a hand
is not in the queue. An operation that fails takes effect when it fails.

A bounded channel is not quite the queue of its capacity. A send can fail although fewer than `cap`
messages are queued, because other operations have slots in their hands. So `queueSpec` lets a send
fail when the queued messages and some other operations under way are `cap` many.
-/

set_option autoImplicit false

namespace ZephyrRust.Channel

open ZephyrRust.Lib (Event Phase Atomic Linearizable)
open ZephyrRust.Lib.Atomic (Glued)
open ZephyrRust.Sys (Queue)

/-- The operations of a channel. -/
inductive ChanOp (T : Type)
  | send (msg : T) (timeout : Timeout)
  | recv (timeout : Timeout)

/-- The queue with the capacity `bound`, or without a bound. -/
def queueSpec {Tid T : Type} (bound : Option Nat)
    (t : Atomic Tid (List T) (ChanOp T) (Outcome T)) (i : Tid) :
    ChanOp T → Outcome T → List T → Prop
  | .send msg _, .sendOk, q => q = t.val ++ [msg] ∧ ∀ cap ∈ bound, t.val.length < cap
  | .send msg timeout, .sendErr msg', q =>
    msg' = msg ∧ q = t.val ∧ timeout ≠ .forever ∧ ∃ cap ∈ bound, ∃ others : Finset Tid,
      i ∉ others ∧ (∀ j ∈ others, t.phase j ≠ .idle) ∧ t.val.length + others.card = cap
  | .recv _, .recvOk msg, q => t.val = msg :: q
  | .recv timeout, .recvErr, q => t.val = [] ∧ q = [] ∧ timeout ≠ .forever
  | _, _, _ => False

/-! ## The bounded channel -/

variable {Tid T : Type} {cap : Nat} {s s' : St Tid T cap} {t : Tid}
variable {a : Atomic Tid (List T) (ChanOp T) (Outcome T)}

/-- What a thread shows when its call is at `p`. -/
def Pc.event (t : Tid) : Pc T cap → Option (Event Tid (ChanOp T) (Outcome T))
  | .returned r => some (.ret t r)
  | _ => none

/-- What a step to `s'` shows. -/
def event (_ : St Tid T cap) (act : Act Tid T) (s' : St Tid T cap) :
    Option (Event Tid (ChanOp T) (Outcome T)) :=
  match act with
  | .sendTimeout t msg timeout => some (.call t (.send msg timeout))
  | .recvTimeout t timeout => some (.call t (.recv timeout))
  | .next t => (s'.pc t).event t

/-- The phase of a thread. `taken` is the message that it has taken out of `chan`. -/
def Pc.fits (taken : Option T) : Pc T cap → Phase (ChanOp T) (Outcome T) → Prop
  | .idle, p => p = .idle
  | .freeRecv msg timeout, p => p = .called (.send msg timeout)
  | .write msg _, p => ∃ timeout, p = .called (.send msg timeout)
  | .chanSend msg _, p => ∃ timeout, p = .called (.send msg timeout)
  | .chanRecv timeout, p => p = .called (.recv timeout)
  | .read _, p => ∃ msg, taken = some msg ∧ p = .done (.recvOk msg)
  | .freeSend msg _, p => p = .done (.recvOk msg)
  | .returned _, p => p = .idle
  | .fault, _ => False

/-- The phase of thread `t` in `s`. -/
def place (s : St Tid T cap) (t : Tid) (p : Phase (ChanOp T) (Outcome T)) : Prop :=
  (s.pc t).fits (s.taken t) p

/-- A thread in no call is in no operation. -/
theorem idle_of_atRest {p : Phase (ChanOp T) (Outcome T)} (hrest : s.atRest t)
    (h : place s t p) : p = .idle := by
  unfold St.atRest at hrest
  unfold place at h
  split at hrest
  · rename_i hpc
    rw [hpc] at h
    exact h
  · rename_i hpc
    rw [hpc] at h
    exact h
  · cases hrest

/-- A thread with a slot in its hand is in an operation. -/
theorem ne_idle_of_inHand {p : Phase (ChanOp T) (Outcome T)} (hhand : (s.pc t).inHand)
    (h : place s t p) : p ≠ .idle := by
  rintro rfl
  unfold place at h
  cases hpc : s.pc t with
  | write | chanSend =>
    rw [hpc] at h
    obtain ⟨timeout, hp⟩ := h
    cases hp
  | read =>
    rw [hpc] at h
    obtain ⟨msg, -, hp⟩ := h
    cases hp
  | freeSend msg buf =>
    rw [hpc] at h
    have hp : Phase.idle = .done (Outcome.recvOk msg) := h
    cases hp
  | idle | freeRecv | chanRecv | returned | fault =>
    rw [hpc] at hhand
    cases hhand

/-- A send takes effect when its slot goes to `chan`. Its own slot was neither free nor in `chan`,
so fewer than `cap` messages were queued. -/
theorem spec_chanSend (hi : Inv s) (hg : Glued queued place s a) {msg : T} {buf : Fin cap}
    (hpc : s.pc t = .chanSend msg buf) (timeout : Timeout) :
    queueSpec (some cap) a t (.send msg timeout) .sendOk (queued s ++ [msg]) := by
  refine ⟨by rw [hg.val], fun n hn => ?_⟩
  cases hn
  obtain ⟨n, hn, hcap⟩ := hi.counted
  have hhand : (s.pc t).inHand.toNat = 1 := by
    rw [hpc]
    rfl
  have hle := hn.toNat_le t
  rw [hg.val, length_queued hi.fifo]
  omega

/-- A send fails when the free list is empty. The slots that are not in `chan` are then in the hands
of others. -/
theorem spec_sendFail (hi : Inv s) (hg : Glued queued place s a) {msg : T} {timeout : Timeout}
    (hpc : s.pc t = .freeRecv msg timeout) (hfree : s.ch.free = [])
    (htimeout : timeout ≠ .forever) :
    queueSpec (some cap) a t (.send msg timeout) (.sendErr msg) (queued s) := by
  obtain ⟨n, ⟨hands, hmem, hcard⟩, hcap⟩ := hi.counted
  refine ⟨rfl, hg.val.symm, htimeout, cap, rfl, hands, ?_, ?_, ?_⟩
  · rw [hmem, hpc]
    exact Bool.noConfusion
  · intro u hu
    exact ne_idle_of_inHand ((hmem u).mp hu) (hg.phase u)
  · rw [hfree, List.length_nil] at hcap
    rw [hg.val, length_queued hi.fifo]
    omega

/-- A receive takes the oldest message. -/
theorem queued_chanRecv (hi : Inv s) {buf : Fin cap} {rest : Queue (Fin cap)}
    (hchan : s.ch.chan = buf :: rest) :
    ∃ msg, s.ch.slots buf = some msg ∧ queued s = msg :: rest.filterMap s.ch.slots := by
  have hmem : buf ∈ s.ch.chan := by
    rw [hchan]
    exact List.mem_cons_self
  obtain ⟨msg, hmsg⟩ := Option.ne_none_iff_exists'.mp (hi.fifo.written_chan hmem)
  refine ⟨msg, hmsg, ?_⟩
  unfold queued
  rw [hchan, List.filterMap_cons_some hmsg]

/-- A write changes no queued message. -/
theorem queued_write (hi : Inv s) {msg : T} {buf : Fin cap} (hpc : s.pc t = .write msg buf) :
    s.ch.chan.filterMap (Function.update s.ch.slots buf (some msg)) = queued s := by
  refine List.filterMap_congr fun b hb => ?_
  have hne : b ≠ buf := by
    rintro rfl
    cases hi.placed.unique (p := .chan) (q := .sender t) hb (by simp [At, hpc, Pc.sending])
  exact Function.update_of_ne hne _ _

/-! ### The steps -/

variable [DecidableEq Tid]

/-- A thread does not change the phase of another one. -/
theorem Move.place_of_ne (hm : Move s t s') (u : Tid) (hu : u ≠ t)
    (p : Phase (ChanOp T) (Outcome T)) (h : place s u p) : place s' u p := by
  have htaken : s'.taken u = s.taken u := by
    cases hm with
    | chanRecv => exact Function.update_of_ne hu _ _
    | _ => rfl
  unfold place
  rw [hm.pc_of_ne hu, htaken]
  exact h

/-- A send that waits forever does not fail. -/
theorem ne_forever_of_sendFail {msg : T} {timeout : Timeout} (hpc : s.pc t = .freeRecv msg timeout)
    (hfree : s.ch.free = []) (hs : s.next t = some s') : timeout ≠ .forever := by
  rintro rfl
  simp only [St.next, hpc, hfree, Queue.recv, if_true] at hs
  cases hs

/-- A receive that waits forever does not fail. -/
theorem ne_forever_of_recvFail {timeout : Timeout} (hpc : s.pc t = .chanRecv timeout)
    (hchan : s.ch.chan = []) (hs : s.next t = some s') : timeout ≠ .forever := by
  rintro rfl
  simp only [St.next, hpc, hchan, Queue.recv, if_true] at hs
  cases hs

/-- An operation inside a call is matched by the atomic queue. -/
theorem glued_next (hi : Inv s) (hg : Glued queued place s a) (hs : s.next t = some s') :
    ∃ a', (Atomic.object (queueSpec (some cap)) []).Path a ((s'.pc t).event t).toList a' ∧
      Glued queued place s' a' := by
  have hm := Move.of_next hs
  have hothers := hm.place_of_ne
  have hphase : place s t (a.phase t) := hg.phase t
  cases hm with
  | sendCall hrest | recvCall hrest =>
    rw [next_of_atRest hrest] at hs
    cases hs
  | @freeRecv msg timeout buf rest hpc hfree =>
    simp only [St.setPc, Function.update_self]
    refine ⟨a, .refl, hg.stay rfl (fun p hp => ?_) hothers⟩
    simp only [place, hpc, Function.update_self, Pc.fits] at hp ⊢
    exact ⟨timeout, hp⟩
  | @sendFail msg timeout hpc hfree =>
    simp only [place, hpc, Pc.fits] at hphase
    have hspec := spec_sendFail hi hg hpc hfree (ne_forever_of_sendFail hpc hfree hs)
    simp only [St.ret, St.setPc, Function.update_self]
    refine ⟨_, Atomic.path_return hphase hspec, hg.goto ?_ hothers⟩
    simp only [place, Function.update_self, Pc.fits]
  | @write msg buf hpc =>
    simp only [St.setPc, Function.update_self]
    refine ⟨a, .refl, hg.stay (queued_write hi hpc) (fun p hp => ?_) hothers⟩
    simp only [place, hpc, Function.update_self, Pc.fits] at hp ⊢
    exact hp
  | @chanSend msg buf hpc =>
    simp only [place, hpc, Pc.fits] at hphase
    obtain ⟨timeout, hphase⟩ := hphase
    have hspec := spec_chanSend hi hg hpc timeout
    -- The slot is in the hand of the sender, with the message in it.
    have hbuf : buf ∉ s.ch.chan := by
      intro hmem
      cases hi.placed.unique (p := .chan) (q := .sender t) hmem (by simp [At, hpc, Pc.sending])
    have hslots : s.ch.slots = Function.update s.ch.slots buf (some msg) := by
      rw [← hi.fifo.written t msg buf hpc, Function.update_eq_self]
    rw [← queued_send (s := { s with
      ch.chan := Queue.send s.ch.chan buf, puts := s.puts ++ [msg] }) hbuf rfl hslots] at hspec
    simp only [St.ret, St.setPc, Function.update_self]
    refine ⟨_, Atomic.path_return hphase hspec, hg.goto ?_ hothers⟩
    simp only [place, Function.update_self, Pc.fits]
  | @chanRecv timeout buf rest hpc hchan =>
    simp only [place, hpc, Pc.fits] at hphase
    obtain ⟨msg, hmsg, hqueued⟩ := queued_chanRecv hi hchan
    have hspec : queueSpec (some cap) a t (.recv timeout) (.recvOk msg)
        (rest.filterMap s.ch.slots) := hg.val.trans hqueued
    simp only [St.setPc, Function.update_self]
    refine ⟨_, .single (.effect hphase hspec), hg.goto ?_ hothers⟩
    simp only [place, Function.update_self, Pc.fits]
    exact ⟨msg, hmsg, rfl⟩
  | @recvFail timeout hpc hchan =>
    simp only [place, hpc, Pc.fits] at hphase
    have hempty : queued s = [] := by
      unfold queued
      rw [hchan]
      rfl
    have hspec : queueSpec (some cap) a t (.recv timeout) .recvErr (queued s) :=
      ⟨hg.val.trans hempty, hempty, ne_forever_of_recvFail hpc hchan hs⟩
    simp only [St.ret, St.setPc, Function.update_self]
    refine ⟨_, Atomic.path_return hphase hspec, hg.goto ?_ hothers⟩
    simp only [place, Function.update_self, Pc.fits]
  | @read msg buf hpc hslot =>
    simp only [St.setPc, Function.update_self]
    refine ⟨a, .refl, hg.stay rfl (fun p hp => ?_) hothers⟩
    simp only [place, hpc, Function.update_self, Pc.fits] at hp ⊢
    obtain ⟨msg', htaken, hp⟩ := hp
    -- The slot holds what the thread took out of `chan`.
    rw [← (hi.fifo.unread t buf hpc).1, hslot] at htaken
    cases htaken
    exact hp
  | @readFault buf hpc hslot =>
    obtain ⟨heq, hne⟩ := hi.fifo.unread t buf hpc
    exact absurd (heq.symm.trans hslot) hne
  | @freeSend msg buf hpc =>
    simp only [place, hpc, Pc.fits] at hphase
    simp only [St.ret, St.setPc, Function.update_self]
    refine ⟨_, .single (.ret hphase), hg.goto_same rfl ?_ hothers⟩
    simp only [place, Function.update_self, Pc.fits]

/-- Every step is matched by the atomic queue. -/
theorem glued_step {ch : Bounded T cap} {act : Act Tid T} (hi : Inv s)
    (hg : Glued queued place s a) (hs : (channel Tid ch).step s act = some s') :
    ∃ a', (Atomic.object (queueSpec (some cap)) []).Path a (event s act s').toList a' ∧
      Glued queued place s' a' := by
  have hothers := (Move.of_step hs).place_of_ne
  cases act with
  | sendTimeout t msg timeout =>
    obtain ⟨hrest, hs⟩ := Option.ite_none_right_eq_some.mp hs
    cases hs
    refine ⟨_, .single (.call (idle_of_atRest hrest (hg.phase t))),
      hg.goto_same rfl ?_ hothers⟩
    simp only [place, St.setPc, Function.update_self, Pc.fits]
  | recvTimeout t timeout =>
    obtain ⟨hrest, hs⟩ := Option.ite_none_right_eq_some.mp hs
    cases hs
    refine ⟨_, .single (.call (idle_of_atRest hrest (hg.phase t))),
      hg.goto_same rfl ?_ hothers⟩
    simp only [place, St.setPc, Function.update_self, Pc.fits]
  | next t => exact glued_next hi hg hs

/-- A bounded channel is linearizable, for any number of threads: each history of overlapping
`send_timeout` and `recv_timeout` calls is one of the atomic queue of its capacity. -/
theorem bounded_linearizable {ch : Bounded T cap} (hch : bounded T cap = some ch) :
    Linearizable ((channel Tid ch).labelled event) (queueSpec (some cap)) [] := by
  refine Linearizable.of_simulation (R := Glued queued place) ⟨?_, ?_⟩
  · cases bounded_eq hch
    exact ⟨rfl, fun t => rfl⟩
  · rintro h s a e s' hh hg ⟨act, hs, rfl⟩
    exact glued_step (Inv.of_reachable hch hh.reachable) hg hs

/-- Three threads on a channel with two slots. -/
theorem bounded_linearizable_two :
    Linearizable ((channel (Fin 3) (Bounded.new Nat 2)).labelled event) (queueSpec (some 2)) [] :=
  bounded_linearizable rfl

/-! ## The unbounded channel -/

namespace Unbounded

variable {Tid Addr T : Type} {s s' : St Tid Addr T} {t : Tid}
variable {q : Atomic Tid (List T) (ChanOp T) (Outcome T)}

/-- What a thread shows when its call is at `p`. -/
def Pc.event (t : Tid) : Pc Addr T → Option (Event Tid (ChanOp T) (Outcome T))
  | .returned r => some (.ret t r)
  | _ => none

/-- What a step to `s'` shows. -/
def event (_ : St Tid Addr T) (act : Act Tid Addr T) (s' : St Tid Addr T) :
    Option (Event Tid (ChanOp T) (Outcome T)) :=
  match act with
  | .sendTimeout t msg timeout => some (.call t (.send msg timeout))
  | .recvTimeout t timeout => some (.call t (.recv timeout))
  | .boxNew _ _ => none
  | .next t => (s'.pc t).event t

/-- The phase of a thread. The box in its hand has the message. -/
def Pc.fits (heap : Addr → Option T) : Pc Addr T → Phase (ChanOp T) (Outcome T) → Prop
  | .idle, p => p = .idle
  | .boxNew msg, p => ∃ timeout, p = .called (.send msg timeout)
  | .queueSend a, p => ∃ msg timeout, heap a = some msg ∧ p = .called (.send msg timeout)
  | .queueRecv timeout, p => p = .called (.recv timeout)
  | .fromRaw a, p => ∃ msg, heap a = some msg ∧ p = .done (.recvOk msg)
  | .returned _, p => p = .idle
  | .fault, _ => False

/-- The phase of thread `t` in `s`. -/
def place (s : St Tid Addr T) (t : Tid) (p : Phase (ChanOp T) (Outcome T)) : Prop :=
  (s.pc t).fits s.heap p

/-- A thread in no call is in no operation. -/
theorem idle_of_atRest {p : Phase (ChanOp T) (Outcome T)} (hrest : s.atRest t)
    (h : place s t p) : p = .idle := by
  unfold St.atRest at hrest
  unfold place at h
  split at hrest
  · rename_i hpc
    rw [hpc] at h
    exact h
  · rename_i hpc
    rw [hpc] at h
    exact h
  · cases hrest

/-- The phase of a thread stays when the box in its hand does. -/
theorem place_congr (hpc : s'.pc t = s.pc t)
    (hheap : ∀ a, (s.pc t).box = some a → s'.heap a = s.heap a)
    {p : Phase (ChanOp T) (Outcome T)} (h : place s t p) : place s' t p := by
  unfold place at h ⊢
  rw [hpc]
  cases hs : s.pc t with
  | queueSend a =>
    rw [hs] at h
    obtain ⟨msg, timeout, hmsg, hp⟩ := h
    exact ⟨msg, timeout, (hheap a (by rw [hs]; rfl)).trans hmsg, hp⟩
  | fromRaw a =>
    rw [hs] at h
    obtain ⟨msg, hmsg, hp⟩ := h
    exact ⟨msg, (hheap a (by rw [hs]; rfl)).trans hmsg, hp⟩
  | idle | boxNew | queueRecv | returned | fault =>
    rw [hs] at h
    exact h

variable [DecidableEq Tid] [DecidableEq Addr]

/-- A thread does not change the phase of another one: the box that it allocates or frees is in no
other hand. -/
theorem Move.place_of_ne (hb : Boxed s) (hm : Move s t s') (u : Tid) (hu : u ≠ t)
    (p : Phase (ChanOp T) (Outcome T)) (h : place s u p) : place s' u p := by
  have hframe : s'.pc u = s.pc u := by
    cases hm <;> exact Function.update_of_ne hu _ _
  refine place_congr hframe (fun b hbox => ?_) h
  cases hm with
  | @boxNew msg a hpc ha =>
    have hne : b ≠ a := by
      rintro rfl
      exact (hb.hand u b hbox).1 ha
    exact Function.update_of_ne hne _ _
  | @fromRaw a msg hpc ha =>
    have hne : b ≠ a := by
      rintro rfl
      exact hu (hb.unique u t b hbox (by rw [hpc]; rfl))
    exact Function.update_of_ne hne _ _
  | queueSend | queueRecv | recvFail | fault => rfl

/-- A receive that waits forever does not fail. -/
theorem ne_forever_of_recvFail {timeout : Timeout} (hpc : s.pc t = .queueRecv timeout)
    (hqueue : s.queue = []) (hs : s.next t = some s') : timeout ≠ .forever := by
  rintro rfl
  simp only [St.next, hpc, hqueue, Queue.recv, if_true] at hs
  cases hs

omit [DecidableEq Tid] in
/-- A new box, and a box that is freed, is not in the queue. -/
theorem queued_update {a : Addr} (ha : a ∉ s.queue) (m : Option T) :
    s.queue.filterMap (Function.update s.heap a m) = queued s := by
  refine List.filterMap_congr fun b hb => ?_
  have hne : b ≠ a := fun he => ha (he ▸ hb)
  exact Function.update_of_ne hne _ _

/-- An operation inside a call is matched by the atomic queue. -/
theorem glued_next (hb : Boxed s) (hg : Glued queued place s q) (hs : s.next t = some s') :
    ∃ q', (Atomic.object (queueSpec none) []).Path q ((s'.pc t).event t).toList q' ∧
      Glued queued place s' q' := by
  have hm : Move s t s' := Move.of_step (a := .next t) rfl hs
  have hothers := hm.place_of_ne hb
  have hphase : place s t (q.phase t) := hg.phase t
  cases hm with
  | @boxNew msg a hpc ha =>
    simp only [St.next, hpc] at hs
    cases hs
  | @queueSend a hpc =>
    simp only [place, hpc, Pc.fits] at hphase
    obtain ⟨msg, timeout, hmsg, hphase⟩ := hphase
    have hqueued : (Queue.send s.queue a).filterMap s.heap = queued s ++ [msg] := by
      rw [Queue.send, List.filterMap_append, List.filterMap_cons_some hmsg, List.filterMap_nil]
      rfl
    have hspec : queueSpec none q t (.send msg timeout) .sendOk
        ((Queue.send s.queue a).filterMap s.heap) := by
      refine ⟨?_, fun cap hcap => ?_⟩
      · rw [hqueued, hg.val]
      · cases hcap
    simp only [St.ret, St.setPc, Function.update_self]
    refine ⟨_, Atomic.path_return hphase hspec, hg.goto ?_ hothers⟩
    simp only [place, Function.update_self, Pc.fits]
  | @queueRecv timeout a rest hpc hqueue =>
    simp only [place, hpc, Pc.fits] at hphase
    have hmem : a ∈ s.queue := by
      rw [hqueue]
      exact List.mem_cons_self
    obtain ⟨msg, hmsg⟩ := Option.ne_none_iff_exists'.mp (hb.queue a hmem)
    have hspec : queueSpec none q t (.recv timeout) (.recvOk msg) (rest.filterMap s.heap) := by
      show q.val = msg :: rest.filterMap s.heap
      rw [hg.val, queued, hqueue, List.filterMap_cons_some hmsg]
    simp only [St.setPc, Function.update_self]
    refine ⟨_, .single (.effect hphase hspec), hg.goto ?_ hothers⟩
    simp only [place, Function.update_self, Pc.fits]
    exact ⟨msg, hmsg, rfl⟩
  | @recvFail timeout hpc hqueue =>
    simp only [place, hpc, Pc.fits] at hphase
    have hempty : queued s = [] := by
      rw [queued, hqueue, List.filterMap_nil]
    have hspec : queueSpec none q t (.recv timeout) .recvErr (queued s) :=
      ⟨hg.val.trans hempty, hempty, ne_forever_of_recvFail hpc hqueue hs⟩
    simp only [St.ret, St.setPc, Function.update_self]
    refine ⟨_, Atomic.path_return hphase hspec, hg.goto ?_ hothers⟩
    simp only [place, Function.update_self, Pc.fits]
  | @fromRaw a msg hpc ha =>
    simp only [place, hpc, Pc.fits] at hphase
    obtain ⟨msg', hmsg, hphase⟩ := hphase
    rw [ha] at hmsg
    cases hmsg
    have hfree : a ∉ s.queue := (hb.hand t a (by rw [hpc]; rfl)).2
    simp only [St.ret, St.setPc, Function.update_self]
    refine ⟨_, .single (.ret hphase), hg.goto_same (queued_update hfree none) ?_ hothers⟩
    simp only [place, Function.update_self, Pc.fits]
  | @fault a hpc ha => exact absurd ha (hb.hand t a (by rw [hpc]; rfl)).1

/-- Every step is matched by the atomic queue. -/
theorem glued_step {act : Act Tid Addr T} (hb : Boxed s) (hg : Glued queued place s q)
    (hs : (unbounded Tid Addr T).step s act = some s') :
    ∃ q', (Atomic.object (queueSpec none) []).Path q (event s act s').toList q' ∧
      Glued queued place s' q' := by
  cases act with
  | sendTimeout t msg timeout =>
    obtain ⟨hrest, hs⟩ := Option.ite_none_right_eq_some.mp hs
    cases hs
    refine ⟨_, .single (.call (idle_of_atRest hrest (hg.phase t))),
      hg.goto_same rfl ?_ fun u hu p hp => ?_⟩
    · simp only [place, St.setPc, Function.update_self, Pc.fits]
      exact ⟨timeout, rfl⟩
    · have hframe : (s.setPc t (.boxNew msg)).pc u = s.pc u := Function.update_of_ne hu _ _
      exact place_congr hframe (fun _ _ => rfl) hp
  | recvTimeout t timeout =>
    obtain ⟨hrest, hs⟩ := Option.ite_none_right_eq_some.mp hs
    cases hs
    refine ⟨_, .single (.call (idle_of_atRest hrest (hg.phase t))),
      hg.goto_same rfl ?_ fun u hu p hp => ?_⟩
    · simp only [place, St.setPc, Function.update_self, Pc.fits]
    · have hframe : (s.setPc t (.queueRecv timeout)).pc u = s.pc u := Function.update_of_ne hu _ _
      exact place_congr hframe (fun _ _ => rfl) hp
  | boxNew t a =>
    have hm : Move s t s' := Move.of_step (a := .boxNew t a) rfl hs
    have hframe := hm.place_of_ne hb
    have hs' : s.boxNew t a = some s' := hs
    unfold St.boxNew at hs'
    split at hs'
    · rename_i msg hpc ha
      cases hs'
      -- The address is free, so the box is not in the queue.
      have hfree : a ∉ s.queue := fun hmem => hb.queue a hmem ha
      refine ⟨q, .refl, hg.stay (queued_update hfree _) (fun p hp => ?_) hframe⟩
      simp only [place, hpc, St.setPc, Function.update_self, Pc.fits] at hp ⊢
      obtain ⟨timeout, hp⟩ := hp
      exact ⟨msg, timeout, rfl, hp⟩
    · cases hs'
  | next t => exact glued_next hb hg hs

/-- The unbounded channel is linearizable: each history of overlapping `send_timeout` and
`recv_timeout` calls is one of the atomic queue without a bound. So no send fails. -/
theorem unbounded_linearizable (Tid Addr T : Type) [DecidableEq Tid] [DecidableEq Addr] :
    Linearizable ((unbounded Tid Addr T).labelled event) (queueSpec none) [] := by
  refine Linearizable.of_simulation (R := Glued queued place) ⟨?_, ?_⟩
  · exact ⟨rfl, fun t => rfl⟩
  · rintro h s q e s' hh hg ⟨act, hs, rfl⟩
    exact glued_step (Boxed.of_reachable hh.reachable) hg hs

end Unbounded

end ZephyrRust.Channel
