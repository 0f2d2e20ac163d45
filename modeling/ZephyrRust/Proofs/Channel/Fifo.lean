import ZephyrRust.Proofs.Channel
import ZephyrRust.Proofs.Channel.Unbounded

/-!
# `ZephyrRust.Proofs.Channel.Fifo`: when a send fails, and the channels as FIFOs

A send fails at one step, at which the free list is empty. All slots are then in `chan` or in
the hands of threads (`free_eq_nil_iff`). `SendCall` follows one call of `send_timeout` to its
end, with all that the other threads do in between.

When no other operation is under way, no slot is in a hand, so the free list is empty exactly
when `cap` messages are queued. `Did` says what one operation has done so far, and at its end
this is what the FIFO of the capacity says.
-/

set_option autoImplicit false

namespace ZephyrRust.Channel

open ZephyrRust.Lib (System Calls Runs Specified ActsAs FifoOp FifoRes fifo)
open ZephyrRust.Sys (Queue)

variable {Tid T : Type} {cap : Nat} {s s' s₀ s₁ : St Tid T cap} {t : Tid}
variable {ch : Bounded T cap}

/-! ## A full channel -/

/-- The free list is empty exactly when `chan` and the hands have all the slots. -/
theorem free_eq_nil_iff (h : Counted s) {hands : Finset Tid}
    (hmem : ∀ t, t ∈ hands ↔ (s.pc t).inHand) :
    s.ch.free = [] ↔ s.ch.chan.length + hands.card = cap := by
  obtain ⟨n, hn, hcap⟩ := h
  have hcard : n = hands.card := hn.unique ⟨hands, hmem, rfl⟩
  rw [← List.length_eq_zero_iff]
  omega

/-- The action is the start of a call. -/
def Act.isCall : Act Tid T → Bool
  | .sendTimeout _ _ _ => true
  | .recvTimeout _ _ => true
  | .next _ => false

theorem atRest_congr (h : s.pc t = s'.pc t) : s.atRest t = s'.atRest t := by
  unfold St.atRest
  rw [h]

variable [DecidableEq Tid]

/-- A thread does not move another one. -/
theorem Move.pc_of_ne (hm : Move s t s') {u : Tid} (hu : u ≠ t) : s'.pc u = s.pc u := by
  cases hm <;> exact Function.update_of_ne hu _ _

/-- A thread that is in no call has no next operation. -/
theorem next_of_atRest (h : s.atRest t) : s.next t = none := by
  unfold St.atRest at h
  unfold St.next
  split at h
  · rename_i hpc
    rw [hpc]
  · rename_i hpc
    rw [hpc]
  · cases h

/-! ## The call of a send -/

deriving instance DecidableEq for Pc

/-- The steps of the other threads. -/
def Others (t : Tid) (a : Act Tid T) : Prop := a.tid ≠ t

/-- The steps of the other threads, and those of `t` inside its call. -/
def Within (t : Tid) (a : Act Tid T) : Prop := a.tid = t → a.isCall = false

instance (t : Tid) : DecidablePred (Within (T := T) t) :=
  fun a => inferInstanceAs (Decidable (a.tid = t → a.isCall = false))

/-- A call of `send_timeout` by `t`, after which the state was `s₁`. -/
inductive SendCall (ch : Bounded T cap) (s₁ : St Tid T cap) (t : Tid) (msg : T)
    (timeout : Timeout) : St Tid T cap → Prop
  /-- It has not taken a slot. -/
  | waiting {s : St Tid T cap} (hl : (channel Tid ch).LaterBy (Others t) s₁ s)
      (hpc : s.pc t = .freeRecv msg timeout) : SendCall ch s₁ t msg timeout s
  /-- It has failed in the step from `s₂` to `s₃`. -/
  | failed {s₂ s₃ s : St Tid T cap} (hl₂ : (channel Tid ch).LaterBy (Others t) s₁ s₂)
      (hfree : s₂.ch.free = []) (hs : (channel Tid ch).step s₂ (.next t) = some s₃)
      (hch : s₃.ch = s₂.ch) (hl₃ : (channel Tid ch).LaterBy (Others t) s₃ s)
      (hpc : s.pc t = .returned (.sendErr msg)) : SendCall ch s₁ t msg timeout s
  /-- It has taken a slot. -/
  | taken {s : St Tid T cap}
      (hpc : (∃ buf, s.pc t = .write msg buf) ∨ (∃ buf, s.pc t = .chanSend msg buf) ∨
        s.pc t = .returned .sendOk) : SendCall ch s₁ t msg timeout s

/-- A step of another thread. -/
theorem SendCall.other {msg : T} {timeout : Timeout} (h : SendCall ch s₁ t msg timeout s)
    {a : Act Tid T} (ha : Others t a) (hs : (channel Tid ch).step s a = some s') :
    SendCall ch s₁ t msg timeout s' := by
  have hframe : s'.pc t = s.pc t := (Move.of_step hs).pc_of_ne (Ne.symm ha)
  cases h with
  | waiting hl hpc => exact .waiting (hl.tail ⟨a, ha, hs⟩) (hframe.trans hpc)
  | failed hl₂ hfree hfail hch hl₃ hpc =>
    exact .failed hl₂ hfree hfail hch (hl₃.tail ⟨a, ha, hs⟩) (hframe.trans hpc)
  | taken hpc =>
    rw [← hframe] at hpc
    exact .taken hpc

/-- The next operation of the send itself. -/
theorem SendCall.own {msg : T} {timeout : Timeout} (h : SendCall ch s₁ t msg timeout s)
    (hs : (channel Tid ch).step s (.next t) = some s') : SendCall ch s₁ t msg timeout s' := by
  have hnext : s.next t = some s' := hs
  cases h with
  | waiting hl hpc =>
    simp only [St.next, hpc] at hnext
    split at hnext
    · cases hnext
      exact .taken (.inl ⟨_, Function.update_self t _ s.pc⟩)
    · rename_i hempty
      -- With `Forever` the thread waits. Otherwise the send fails here.
      split at hnext
      · cases hnext
      · cases hnext
        exact .failed hl (Queue.recv_eq_none.mp hempty) hs rfl .refl
          (Function.update_self t _ s.pc)
  | failed hl₂ hfree hfail hch hl₃ hpc =>
    simp only [St.next, hpc] at hnext
    cases hnext
  | taken hpc =>
    rcases hpc with ⟨buf, hpc⟩ | ⟨buf, hpc⟩ | hpc
    · simp only [St.next, hpc] at hnext
      cases hnext
      exact .taken (.inr (.inl ⟨buf, Function.update_self t _ s.pc⟩))
    · simp only [St.next, hpc] at hnext
      cases hnext
      exact .taken (.inr (.inr (Function.update_self t _ s.pc)))
    · simp only [St.next, hpc] at hnext
      cases hnext

/-- Every state up to the end of the call, and after it until `t` calls again. -/
theorem SendCall.of_laterBy {msg : T} {timeout : Timeout} (hr : (channel Tid ch).Reachable s₁)
    (hpc : s₁.pc t = .freeRecv msg timeout) (hl : (channel Tid ch).LaterBy (Within t) s₁ s) :
    SendCall ch s₁ t msg timeout s := by
  refine hl.stable hr (.waiting .refl hpc) fun s a s' _ ha h hs => ?_
  by_cases hat : a.tid = t
  · have hcall : a.isCall = false := ha hat
    cases a with
    | sendTimeout | recvTimeout => cases hcall
    | next u =>
      cases hat
      exact h.own hs
  · exact h.other hat hs

/-- A failed send gives its message back and leaves the channel as it is, in its call and in the
step in which it fails. All the other steps are steps of other threads. -/
theorem sendTimeout_fails {msg msg' : T} {timeout : Timeout}
    (hr : (channel Tid ch).Reachable s₀)
    (hcall : (channel Tid ch).step s₀ (.sendTimeout t msg timeout) = some s₁)
    (hl : (channel Tid ch).LaterBy (Within t) s₁ s) (hpc : s.pc t = .returned (.sendErr msg')) :
    msg' = msg ∧ s₁.ch = s₀.ch ∧ ∃ s₂ s₃, (channel Tid ch).LaterBy (Others t) s₁ s₂ ∧
      (channel Tid ch).Reachable s₂ ∧ s₂.ch.free = [] ∧
      (channel Tid ch).step s₂ (.next t) = some s₃ ∧ s₃.ch = s₂.ch ∧
      (channel Tid ch).LaterBy (Others t) s₃ s := by
  have hr₁ := hr.next hcall
  obtain ⟨-, hs₁⟩ := Option.ite_none_right_eq_some.mp hcall
  cases hs₁
  cases SendCall.of_laterBy hr₁ (Function.update_self t _ s₀.pc) hl with
  | waiting _ hwait => cases hwait.symm.trans hpc
  | failed hl₂ hfree hs hch hl₃ hfail =>
    cases hfail.symm.trans hpc
    exact ⟨rfl, rfl, _, _, hl₂, hr₁.later hl₂.later, hfree, hs, hch, hl₃⟩
  | taken htaken =>
    rcases htaken with ⟨buf, htaken⟩ | ⟨buf, htaken⟩ | htaken
    · cases htaken.symm.trans hpc
    · cases htaken.symm.trans hpc
    · cases htaken.symm.trans hpc

/-! ## One operation at a time -/

/-- The messages in `chan`, oldest first. -/
def queued (s : St Tid T cap) : List T := s.ch.chan.filterMap s.ch.slots

/-- `try_send` and `try_recv` are the calls with `NoWait`. -/
def Act.call (t : Tid) : FifoOp T → Act Tid T
  | .push msg => .sendTimeout t msg .noWait
  | .pop => .recvTimeout t .noWait

/-- What the call of a thread has returned. -/
def Pc.result : Pc T cap → Option (FifoRes T)
  | .returned o => some o.res
  | _ => none

/-- The threads as callers of `try_send` and `try_recv`. -/
def calls (Tid : Type) [DecidableEq Tid] (ch : Bounded T cap) :
    Calls (St Tid T cap) (Act Tid T) Tid (FifoOp T) (FifoRes T) where
  system := channel Tid ch
  call := Act.call
  isCall := Act.isCall
  party := Act.tid
  atRest := St.atRest
  result s t := (s.pc t).result

/-- What an operation that was called in `s₀` has done in `s`, by the place of its thread. -/
def Did (s₀ s : St Tid T cap) : FifoOp T → Pc T cap → Prop
  | .push msg, .freeRecv m _ => m = msg ∧ s.ch = s₀.ch
  | .push msg, .write m buf =>
    m = msg ∧ buf ∈ s₀.ch.free ∧ s.ch.chan = s₀.ch.chan ∧ s.ch.slots = s₀.ch.slots
  | .push msg, .chanSend _ buf =>
    buf ∈ s₀.ch.free ∧ s.ch.chan = s₀.ch.chan ∧
      s.ch.slots = Function.update s₀.ch.slots buf (some msg)
  | .push msg, .returned .sendOk =>
    ∃ buf ∈ s₀.ch.free, s.ch.chan = Queue.send s₀.ch.chan buf ∧
      s.ch.slots = Function.update s₀.ch.slots buf (some msg)
  | .push msg, .returned (.sendErr m) => m = msg ∧ s₀.ch.free = [] ∧ s.ch = s₀.ch
  | .pop, .chanRecv _ => s.ch = s₀.ch
  | .pop, .read buf => s₀.ch.chan = buf :: s.ch.chan ∧ s.ch.slots = s₀.ch.slots
  | .pop, .freeSend msg buf =>
    s₀.ch.chan = buf :: s.ch.chan ∧ s.ch.slots = s₀.ch.slots ∧ s₀.ch.slots buf = some msg
  | .pop, .returned (.recvOk msg) =>
    ∃ buf, s₀.ch.chan = buf :: s.ch.chan ∧ s.ch.slots = s₀.ch.slots ∧
      s₀.ch.slots buf = some msg
  | .pop, .returned .recvErr => s₀.ch.chan = [] ∧ s.ch = s₀.ch
  | _, _ => False

/-- The next operation of the thread. -/
theorem Did.next {op : FifoOp T} (h₀ : Fifo s₀) (h : Did s₀ s op (s.pc t))
    (hs : s.next t = some s') : Did s₀ s' op (s'.pc t) := by
  cases op with
  | push msg =>
    cases hpc : s.pc t with
    | freeRecv m timeout =>
      rw [hpc] at h
      obtain ⟨rfl, hch⟩ := h
      have hchan : s.ch.chan = s₀.ch.chan := by rw [hch]
      have hslots : s.ch.slots = s₀.ch.slots := by rw [hch]
      simp only [St.next, hpc] at hs
      split at hs
      · rename_i buf rest hfree
        cases hs
        simp only [St.setPc, Function.update_self]
        refine ⟨rfl, ?_, hchan, hslots⟩
        rw [← hch, Queue.recv_eq_some.mp hfree]
        exact List.mem_cons_self
      · rename_i hfree
        split at hs
        · cases hs
        · cases hs
          simp only [St.ret, St.setPc, Function.update_self]
          exact ⟨rfl, by rw [← hch]; exact Queue.recv_eq_none.mp hfree, hch⟩
    | write m buf =>
      rw [hpc] at h
      obtain ⟨rfl, hbuf, hchan, hslots⟩ := h
      simp only [St.next, hpc] at hs
      cases hs
      simp only [St.setPc, Function.update_self]
      exact ⟨hbuf, hchan, congrArg (Function.update · buf (some m)) hslots⟩
    | chanSend m buf =>
      rw [hpc] at h
      obtain ⟨hbuf, hchan, hslots⟩ := h
      simp only [St.next, hpc] at hs
      cases hs
      simp only [St.ret, St.setPc, Function.update_self]
      exact ⟨buf, hbuf, congrArg (Queue.send · buf) hchan, hslots⟩
    | returned | idle | fault =>
      simp only [St.next, hpc] at hs
      cases hs
    | chanRecv | read | freeSend =>
      rw [hpc] at h
      exact h.elim
  | pop =>
    cases hpc : s.pc t with
    | chanRecv timeout =>
      rw [hpc] at h
      have hch : s.ch = s₀.ch := h
      have hslots : s.ch.slots = s₀.ch.slots := by rw [hch]
      simp only [St.next, hpc] at hs
      split at hs
      · rename_i buf rest hchan
        cases hs
        simp only [St.setPc, Function.update_self]
        exact ⟨by rw [← hch]; exact Queue.recv_eq_some.mp hchan, hslots⟩
      · rename_i hchan
        split at hs
        · cases hs
        · cases hs
          simp only [St.ret, St.setPc, Function.update_self]
          exact ⟨by rw [← hch]; exact Queue.recv_eq_none.mp hchan, hch⟩
    | read buf =>
      rw [hpc] at h
      obtain ⟨hchan, hslots⟩ := h
      simp only [St.next, hpc] at hs
      split at hs
      · rename_i msg hmsg
        cases hs
        simp only [St.setPc, Function.update_self]
        exact ⟨hchan, hslots, hslots ▸ hmsg⟩
      · -- The slot came out of `chan`, so it was written.
        rename_i hmsg
        have hmem : buf ∈ s₀.ch.chan := by
          rw [hchan]
          exact List.mem_cons_self
        exact absurd (hslots ▸ hmsg) (h₀.written_chan hmem)
    | freeSend msg buf =>
      rw [hpc] at h
      simp only [St.next, hpc] at hs
      cases hs
      simp only [St.ret, St.setPc, Function.update_self]
      exact ⟨buf, h⟩
    | returned | idle | fault =>
      simp only [St.next, hpc] at hs
      cases hs
    | freeRecv | write | chanSend =>
      rw [hpc] at h
      exact h.elim

/-- The call changes nothing but the place of its thread. -/
theorem Did.of_call {op : FifoOp T} (hs : (channel Tid ch).step s₀ (.call t op) = some s) :
    Did s₀ s op (s.pc t) ∧ ∀ u, u ≠ t → s.atRest u = s₀.atRest u := by
  cases op with
  | push msg =>
    obtain ⟨-, hs⟩ := Option.ite_none_right_eq_some.mp hs
    cases hs
    simp only [St.setPc, Function.update_self]
    exact ⟨⟨rfl, rfl⟩, fun u hu => atRest_congr (Function.update_of_ne hu _ _)⟩
  | pop =>
    obtain ⟨-, hs⟩ := Option.ite_none_right_eq_some.mp hs
    cases hs
    simp only [St.setPc, Function.update_self]
    exact ⟨rfl, fun u hu => atRest_congr (Function.update_of_ne hu _ _)⟩

omit [DecidableEq Tid] in
/-- Every slot in `chan` has its message. -/
theorem length_queued (h : Fifo s) : (queued s).length = s.ch.chan.length := by
  refine List.filterMap_length_eq_length.mpr fun buf hbuf => ?_
  exact Option.isSome_iff_ne_none.mpr (h.written_chan hbuf)

omit [DecidableEq Tid] in
/-- When no operation is under way, the slots that are not in `chan` are free. -/
theorem free_eq_nil_iff_queued (hi : Inv s) (hq : ∀ t, s.atRest t) :
    s.ch.free = [] ↔ (queued s).length = cap := by
  have hnone : ∀ t, t ∈ (∅ : Finset Tid) ↔ (s.pc t).inHand := by
    intro t
    rw [Pc.inHand, (hands_of_atRest (hq t)).1, (hands_of_atRest (hq t)).2]
    simp
  rw [free_eq_nil_iff hi.counted hnone, length_queued hi.fifo]
  rfl

omit [DecidableEq Tid] in
/-- A message is at the end of the queue once its slot is in `chan`. -/
theorem queued_send {msg : T} {buf : Fin cap} (hbuf : buf ∉ s₀.ch.chan)
    (hchan : s.ch.chan = Queue.send s₀.ch.chan buf)
    (hslots : s.ch.slots = Function.update s₀.ch.slots buf (some msg)) :
    queued s = queued s₀ ++ [msg] := by
  have hold : ∀ b ∈ s₀.ch.chan, Function.update s₀.ch.slots buf (some msg) b = s₀.ch.slots b := by
    intro b hb
    have hne : b ≠ buf := fun he => hbuf (he ▸ hb)
    exact Function.update_of_ne hne _ _
  unfold queued
  rw [hchan, hslots, Queue.send, List.filterMap_append, List.filterMap_congr hold]
  simp

omit [DecidableEq Tid] in
/-- What an operation has done when it returns is an operation of the FIFO. -/
theorem Did.specified {op : FifoOp T} {o : Outcome T} (hi : Inv s₀) (hq : ∀ t, s₀.atRest t)
    (h : Did s₀ s op (.returned o)) :
    Specified (fifo (some cap)) (queued s₀) op o.res (queued s) := by
  have hfull := free_eq_nil_iff_queued hi hq
  cases op with
  | push msg =>
    cases o with
    | sendOk =>
      obtain ⟨buf, hbuf, hchan, hslots⟩ := h
      -- A slot that was free is not in `chan`, so the write changed no queued message.
      have hne : buf ∉ s₀.ch.chan := fun hc => by
        cases hi.placed.unique (p := .free) (q := .chan) hbuf hc
      have hroom : s₀.ch.free ≠ [] := List.ne_nil_of_mem hbuf
      rw [queued_send hne hchan hslots]
      exact Lib.fifo_push_of_room fun he => hroom (hfull.mpr (Option.some.inj he).symm)
    | sendErr m =>
      obtain ⟨rfl, hfree, hch⟩ := h
      unfold queued
      rw [hch]
      exact Lib.fifo_push_of_full (congrArg some (hfull.mp hfree).symm)
    | recvOk | recvErr => exact h.elim
  | pop =>
    cases o with
    | recvErr =>
      obtain ⟨hempty, hch⟩ := h
      unfold queued
      rw [hch, hempty]
      rfl
    | recvOk msg =>
      obtain ⟨buf, hchan, hslots, hmsg⟩ := h
      unfold queued
      rw [hslots, hchan, List.filterMap_cons_some hmsg]
      rfl
    | sendOk | sendErr => exact h.elim

theorem Pc.of_result {p : Pc T cap} {r : FifoRes T} (h : p.result = some r) :
    ∃ o, p = .returned o ∧ o.res = r := by
  unfold Pc.result at h
  split at h
  · rename_i o
    exact ⟨o, rfl, Option.some.inj h⟩
  · cases h

omit [DecidableEq Tid] in
theorem atRest_of_returned {o : Outcome T} (h : s.pc t = .returned o) : s.atRest t = true := by
  unfold St.atRest
  rw [h]

/-- Without overlapping operations the channel acts as the FIFO of its capacity. -/
theorem actsAs (hch : bounded T cap = some ch) :
    ActsAs (calls Tid ch).Operation (fun q op => fifo (some cap) q op.2) (calls Tid ch).Quiet
      queued := by
  refine Calls.actsAs (fun s₀ op t s => Did s₀ s op (s.pc t)) ?_ ?_ ?_ ?_
  · intro s₀ t op s hs
    exact Did.of_call hs
  · intro s a s' ha hs
    cases a with
    | sendTimeout | recvTimeout => cases ha
    | next t =>
      refine ⟨?_, fun u hu => atRest_congr ((Move.of_next hs).pc_of_ne hu)⟩
      show s.atRest t = false
      by_contra hrest
      cases hs.symm.trans (next_of_atRest (eq_true_of_ne_false hrest))
  · intro s₀ op s a s' hq hdid ha hs
    cases a with
    | sendTimeout | recvTimeout => cases ha
    | next t => exact Did.next (Inv.of_reachable hch hq.1).fifo hdid hs
  · intro s₀ t op s r hq hdid hr
    obtain ⟨o, hpc, rfl⟩ := Pc.of_result hr
    rw [hpc] at hdid
    exact ⟨atRest_of_returned hpc, hdid.specified (Inv.of_reachable hch hq.1) hq.2⟩

/-- A `try_send` and a `try_recv` complete. -/
theorem completes (hch : bounded T cap = some ch) (hq : (calls Tid ch).Quiet s)
    (op : Tid × FifoOp T) : ∃ r s', (calls Tid ch).Operation s op r s' := by
  obtain ⟨t, op⟩ := op
  have hrest : s.atRest t = true := hq.2 t
  have htimeout : Timeout.noWait ≠ Timeout.forever := by decide
  cases op with
  | push msg =>
    cases hfree : s.ch.free with
    | nil =>
      refine ⟨.full msg, Calls.Operation.of_exec [.next t] (by simp [calls, Act.isCall]) ?_⟩
      simp [System.exec, calls, channel, Act.call, St.sendTimeout, hrest, St.next, hfree,
        Queue.recv, htimeout, Pc.result, Outcome.res]
    | cons buf rest =>
      refine ⟨.pushed, Calls.Operation.of_exec [.next t, .next t, .next t]
        (by simp [calls, Act.isCall]) ?_⟩
      simp [System.exec, calls, channel, Act.call, St.sendTimeout, hrest, St.next, hfree,
        Queue.recv, Pc.result, Outcome.res]
  | pop =>
    cases hchan : s.ch.chan with
    | nil =>
      refine ⟨.empty, Calls.Operation.of_exec [.next t] (by simp [calls, Act.isCall]) ?_⟩
      simp [System.exec, calls, channel, Act.call, St.recvTimeout, hrest, St.next, hchan,
        Queue.recv, htimeout, Pc.result, Outcome.res]
    | cons buf rest =>
      have hmem : buf ∈ s.ch.chan := by
        rw [hchan]
        exact List.mem_cons_self
      obtain ⟨msg, hmsg⟩ := Option.ne_none_iff_exists'.mp
        ((Inv.of_reachable hch hq.1).fifo.written_chan hmem)
      refine ⟨.popped msg, Calls.Operation.of_exec [.next t, .next t, .next t]
        (by simp [calls, Act.isCall]) ?_⟩
      simp [System.exec, calls, channel, Act.call, St.recvTimeout, hrest, St.next, hchan,
        Queue.recv, hmsg, Pc.result, Outcome.res]

/-! ## The two flavors -/

/-- When a send fails, and what the channels are without overlapping operations. Any number of
threads use the channel, through any number of handles.

* A send that fails, with any timeout, gives back the message of its call. Its call and the step
  in which it fails leave the channel as it is, and there are no other steps of its thread. In that
  step the free list is empty.
* The free list is empty exactly when the slots in `chan` and the operations that have a slot in
  their hands are `cap` many.
* Without overlapping operations a bounded channel is a FIFO of its capacity, and every
  `try_send` and `try_recv` completes.
* No send on an unbounded channel fails. Without overlapping operations it is a FIFO without a
  bound, and a `try_recv` completes, and a `try_send` does when there is memory for the message. -/
theorem send_fails_only_when_full {Addr : Type} [DecidableEq Addr]
    (hch : bounded T cap = some ch) :
    (∀ s₀ t msg timeout s₁ s msg', (channel Tid ch).Reachable s₀ →
      (channel Tid ch).step s₀ (.sendTimeout t msg timeout) = some s₁ →
      (channel Tid ch).LaterBy (Within t) s₁ s → s.pc t = .returned (.sendErr msg') →
      msg' = msg ∧ s₁.ch = s₀.ch ∧ ∃ s₂ s₃, (channel Tid ch).LaterBy (Others t) s₁ s₂ ∧
        (channel Tid ch).Reachable s₂ ∧ s₂.ch.free = [] ∧
        (channel Tid ch).step s₂ (.next t) = some s₃ ∧ s₃.ch = s₂.ch ∧
        (channel Tid ch).LaterBy (Others t) s₃ s) ∧
    (∀ s, (channel Tid ch).Reachable s → ∃ hands : Finset Tid,
      (∀ t, t ∈ hands ↔ (s.pc t).inHand) ∧
      (s.ch.free = [] ↔ s.ch.chan.length + hands.card = cap)) ∧
    ((calls Tid ch).Quiet (channel Tid ch).init ∧ queued (channel Tid ch).init = [] ∧
      (calls Tid ch).IsFifo (some cap) queued ∧
      ∀ s op, (calls Tid ch).Quiet s → ∃ r s', (calls Tid ch).Operation s op r s') ∧
    (∀ s, (Unbounded.unbounded Tid Addr T).Reachable s →
      ∀ t msg, s.pc t ≠ .returned (.sendErr msg)) ∧
    ((Unbounded.calls Tid Addr T).Quiet (Unbounded.unbounded Tid Addr T).init ∧
      Unbounded.queued (Unbounded.unbounded Tid Addr T).init = [] ∧
      (Unbounded.calls Tid Addr T).IsFifo none Unbounded.queued ∧
      ∀ s t, (Unbounded.calls Tid Addr T).Quiet s →
        (∃ r s', (Unbounded.calls Tid Addr T).Operation s (t, .pop) r s') ∧
        ∀ msg a, s.heap a = none →
          ∃ r s', (Unbounded.calls Tid Addr T).Operation s (t, .push msg) r s') := by
  refine ⟨?_, fun s hr => ?_, ⟨?_, ?_, .of_actsAs (actsAs hch), ?_⟩, ?_,
    ⟨?_, rfl, .of_actsAs Unbounded.actsAs, ?_⟩⟩
  · intro s₀ t msg timeout s₁ s msg' hr hcall hl hpc
    exact sendTimeout_fails hr hcall hl hpc
  · have hi := Inv.of_reachable hch hr
    obtain ⟨n, ⟨hands, hmem, -⟩, -⟩ := hi.counted
    exact ⟨hands, hmem, free_eq_nil_iff hi.counted hmem⟩
  · exact ⟨System.Reachable.start, fun _ => rfl⟩
  · cases bounded_eq hch
    rfl
  · intro s op hq
    exact completes hch hq op
  · intro s hr t msg
    exact (Unbounded.Boxed.of_reachable hr).sends t msg
  · exact ⟨System.Reachable.start, fun _ => rfl⟩
  · intro s t hq
    exact ⟨Unbounded.tryRecv_completes hq t,
      fun msg a ha => Unbounded.trySend_completes hq t msg ha⟩

/-- A channel with one slot. Thread 1 has it in its hand, `chan` is empty, and the `try_send` of
thread 2 gives 4 back. One after another, the first send succeeds and the second one fails. -/
theorem send_fails_only_when_full_one :
    (∃ s₀ s₂ s : St (Fin 3) Nat 1, s₀.pc 1 = .read 0 ∧ s₀.ch.chan = [] ∧ s₂.ch.free = [] ∧
      s.pc 2 = .returned (.sendErr 4)) ∧
    (∃ s, Runs (calls (Fin 3) (Bounded.new Nat 1)).Operation
      (channel (Fin 3) (Bounded.new Nat 1)).init
      [((0, .push 3), .pushed), ((1, .push 4), .full 4), ((2, .pop), .popped 3)] s) ∧
    ∃ r s, (Unbounded.calls (Fin 3) Nat Nat).Operation
      (Unbounded.unbounded (Fin 3) Nat Nat).init (1, .push 4) r s := by
  obtain ⟨hfail, -, ⟨hquiet, hempty, hfifo, hcomplete⟩, -, hquiet', -, -, hcomplete'⟩ :=
    @send_fails_only_when_full (Fin 3) Nat 1 (Bounded.new Nat 1) _ Nat _ rfl
  refine ⟨?_, ?_, (hcomplete' _ 1 hquiet').2 4 0 rfl⟩
  · obtain ⟨s₀, hr, hs⟩ := (channel (Fin 3) (Bounded.new Nat 1)).reachable_of_exec
      ([.sendTimeout 0 3 .forever] ++ List.replicate 3 (.next 0) ++
        [.recvTimeout 1 .forever, .next 1])
      (fun s₀ => decide (s₀.pc 1 = .read 0) && decide (s₀.ch.chan = []) &&
        (((channel (Fin 3) (Bounded.new Nat 1)).step s₀ (.sendTimeout 2 4 .noWait)).bind
          fun s₁ => (channel (Fin 3) (Bounded.new Nat 1)).exec s₁ [.next 2, .next 1]).any
            fun s : St (Fin 3) Nat 1 => decide (s.pc 2 = .returned (.sendErr 4))) rfl
    obtain ⟨hstart, hany⟩ := Bool.and_eq_true_iff.mp hs
    obtain ⟨hread, hchan⟩ := Bool.and_eq_true_iff.mp hstart
    obtain ⟨s, hexec, hend⟩ := Option.any_eq_true _ _ |>.mp hany
    obtain ⟨s₁, hcall, hrun⟩ := Option.bind_eq_some_iff.mp hexec
    have hpc := of_decide_eq_true hend
    obtain ⟨-, -, s₂, -, -, -, hfree, -⟩ :=
      hfail s₀ 2 4 .noWait s₁ s 4 hr hcall (.of_exec (by decide) hrun) hpc
    exact ⟨s₀, s₂, s, of_decide_eq_true hread, of_decide_eq_true hchan, hfree, hpc⟩
  · obtain ⟨r₁, s₁, h₁⟩ := hcomplete _ (0, .push 3) hquiet
    obtain ⟨hquiet₁, hspec₁⟩ := hfifo.acts _ _ _ _ hquiet h₁
    rw [hempty] at hspec₁
    obtain ⟨rfl, hqueued₁⟩ := Prod.mk.inj hspec₁
    obtain ⟨r₂, s₂, h₂⟩ := hcomplete _ (1, .push 4) hquiet₁
    obtain ⟨hquiet₂, hspec₂⟩ := hfifo.acts _ _ _ _ hquiet₁ h₂
    rw [← hqueued₁] at hspec₂
    obtain ⟨rfl, hqueued₂⟩ := Prod.mk.inj hspec₂
    obtain ⟨r₃, s₃, h₃⟩ := hcomplete _ (2, .pop) hquiet₂
    have hspec₃ := (hfifo.acts _ _ _ _ hquiet₂ h₃).2
    rw [← hqueued₂] at hspec₃
    obtain ⟨rfl, -⟩ := Prod.mk.inj hspec₃
    exact ⟨s₃, .cons h₁ (.cons h₂ (.cons h₃ .nil))⟩

end ZephyrRust.Channel
