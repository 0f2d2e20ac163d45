import ZephyrRust.Channel.Unbounded
import ZephyrRust.Lib.Sequential

/-!
# `ZephyrRust.Proofs.Channel.Unbounded`: the unbounded channel is a FIFO

Every box is in the queue or in the hand of one thread (`Boxed`), so no receive follows a
pointer to a box that was freed, and a new box is not in the queue.

`Did` says what one operation has done so far when no other operation is under way. At its
end this is what the FIFO without a bound says (`actsAs`).
-/

set_option autoImplicit false

namespace ZephyrRust.Channel

open ZephyrRust.Lib (System Calls Specified ActsAs FifoOp FifoRes fifo)
open ZephyrRust.Sys (Queue)

/-- What `try_send` and `try_recv` return, as results of a FIFO. -/
def Outcome.res {T : Type} : Outcome T → FifoRes T
  | .sendOk => .pushed
  | .sendErr msg => .full msg
  | .recvOk msg => .popped msg
  | .recvErr => .empty

namespace Unbounded

variable {Tid Addr T : Type} {s s' s₀ : St Tid Addr T} {t : Tid}

/-! ## The boxes -/

/-- The box in the hand of a thread. -/
def Pc.box : Pc Addr T → Option Addr
  | .queueSend a => some a
  | .fromRaw a => some a
  | _ => none

/-- The boxes in the queue and in the hands are allocated, and no box is at two places. -/
structure Boxed (s : St Tid Addr T) : Prop where
  nodup : s.queue.Nodup
  queue : ∀ a ∈ s.queue, s.heap a ≠ none
  hand : ∀ t a, (s.pc t).box = some a → s.heap a ≠ none ∧ a ∉ s.queue
  unique : ∀ t u a, (s.pc t).box = some a → (s.pc u).box = some a → t = u
  /-- No receive follows a pointer to a freed box. -/
  sound : ∀ t, s.pc t ≠ .fault
  /-- No send fails. -/
  sends : ∀ t msg, s.pc t ≠ .returned (.sendErr msg)

variable [DecidableEq Tid]

/-- A step of thread `t` to `p`. The boxes of the others stay, and `t` has its box alone. -/
theorem Boxed.update (h : Boxed s) {queue : Queue Addr} {heap : Addr → Option T}
    {p : Pc Addr T} (hnodup : queue.Nodup) (hqueue : ∀ a ∈ queue, heap a ≠ none)
    (hframe : ∀ u a, u ≠ t → (s.pc u).box = some a → heap a ≠ none ∧ a ∉ queue)
    (hhand : ∀ a, p.box = some a →
      heap a ≠ none ∧ a ∉ queue ∧ ∀ u, u ≠ t → (s.pc u).box ≠ some a)
    (hsound : p ≠ .fault) (hsends : ∀ msg, p ≠ .returned (.sendErr msg)) :
    Boxed { queue := queue, heap := heap, pc := Function.update s.pc t p } := by
  have hown : ∀ u a, (Function.update s.pc t p u).box = some a →
      u = t ∧ p.box = some a ∨ u ≠ t ∧ (s.pc u).box = some a := by
    intro u a hu
    by_cases hut : u = t
    · rw [hut, Function.update_self] at hu
      exact .inl ⟨hut, hu⟩
    · rw [Function.update_of_ne hut] at hu
      exact .inr ⟨hut, hu⟩
  refine ⟨hnodup, hqueue, fun u a hu => ?_, fun u v a hu hv => ?_, fun u => ?_, fun u msg => ?_⟩
  · rcases hown u a hu with ⟨-, hp⟩ | ⟨hut, hu⟩
    · exact ⟨(hhand a hp).1, (hhand a hp).2.1⟩
    · exact hframe u a hut hu
  · rcases hown u a hu with ⟨hut, hp⟩ | ⟨hut, hu⟩ <;> rcases hown v a hv with ⟨hvt, hq⟩ | ⟨hvt, hv⟩
    · rw [hut, hvt]
    · exact absurd hv ((hhand a hp).2.2 v hvt)
    · exact absurd hu ((hhand a hq).2.2 u hut)
    · exact h.unique u v a hu hv
  · show Function.update s.pc t p u ≠ _
    by_cases hut : u = t
    · rwa [hut, Function.update_self]
    · rw [Function.update_of_ne hut]
      exact h.sound u
  · show Function.update s.pc t p u ≠ _
    by_cases hut : u = t
    · rw [hut, Function.update_self]
      exact hsends msg
    · rw [Function.update_of_ne hut]
      exact h.sends u msg

variable [DecidableEq Addr]

/-- The thread that acts. -/
def Act.tid : Act Tid Addr T → Tid
  | .sendTimeout t _ _ => t
  | .recvTimeout t _ => t
  | .boxNew t _ => t
  | .next t => t

/-- The action is the start of a call. -/
def Act.isCall : Act Tid Addr T → Bool
  | .sendTimeout _ _ _ => true
  | .recvTimeout _ _ => true
  | .boxNew _ _ => false
  | .next _ => false

/-- The operations inside a call of thread `t`. -/
inductive Move (s : St Tid Addr T) (t : Tid) : St Tid Addr T → Prop
  | boxNew {msg : T} {a : Addr} (hpc : s.pc t = .boxNew msg) (ha : s.heap a = none) :
      Move s t
        ({ s with heap := Function.update s.heap a (some msg) }.setPc t (.queueSend a))
  | queueSend {a : Addr} (hpc : s.pc t = .queueSend a) :
      Move s t ({ s with queue := Queue.send s.queue a }.ret t .sendOk)
  | queueRecv {timeout : Timeout} {a : Addr} {rest : Queue Addr}
      (hpc : s.pc t = .queueRecv timeout) (hqueue : s.queue = a :: rest) :
      Move s t ({ s with queue := rest }.setPc t (.fromRaw a))
  | recvFail {timeout : Timeout} (hpc : s.pc t = .queueRecv timeout) (hqueue : s.queue = []) :
      Move s t (s.ret t .recvErr)
  | fromRaw {a : Addr} {msg : T} (hpc : s.pc t = .fromRaw a) (ha : s.heap a = some msg) :
      Move s t ({ s with heap := Function.update s.heap a none }.ret t (.recvOk msg))
  | fault {a : Addr} (hpc : s.pc t = .fromRaw a) (ha : s.heap a = none) :
      Move s t (s.setPc t .fault)

/-- An action that starts no call is an operation of the list. -/
theorem Move.of_step {a : Act Tid Addr T} (ha : a.isCall = false)
    (h : (unbounded Tid Addr T).step s a = some s') : Move s a.tid s' := by
  cases a with
  | sendTimeout | recvTimeout => cases ha
  | boxNew t a =>
    simp only [unbounded, St.boxNew] at h
    split at h
    · cases h
      exact .boxNew ‹_› ‹_›
    · cases h
  | next t =>
    simp only [unbounded, St.next] at h
    split at h
    · cases h
      exact .queueSend ‹_›
    · split at h
      · rename_i hq
        cases h
        exact .queueRecv ‹_› (Queue.recv_eq_some.mp hq)
      · rename_i hq
        split at h
        · cases h
        · cases h
          exact .recvFail ‹_› (Queue.recv_eq_none.mp hq)
    · split at h
      · cases h
        exact .fromRaw ‹_› ‹_›
      · cases h
        exact .fault ‹_› ‹_›
    all_goals cases h

/-- A call starts at rest and changes nothing but its thread. -/
theorem call_eq {a : Act Tid Addr T} (ha : a.isCall = true)
    (h : (unbounded Tid Addr T).step s a = some s') :
    s.atRest a.tid ∧ ∃ p : Pc Addr T, s' = s.setPc a.tid p ∧
      ((∃ msg, p = .boxNew msg) ∨ ∃ timeout, p = .queueRecv timeout) := by
  cases a with
  | sendTimeout t msg timeout =>
    obtain ⟨hrest, hs⟩ := Option.ite_none_right_eq_some.mp h
    cases hs
    exact ⟨hrest, _, rfl, .inl ⟨msg, rfl⟩⟩
  | recvTimeout t timeout =>
    obtain ⟨hrest, hs⟩ := Option.ite_none_right_eq_some.mp h
    cases hs
    exact ⟨hrest, _, rfl, .inr ⟨timeout, rfl⟩⟩
  | boxNew | next => cases ha

/-- Every operation keeps the boxes at their places. -/
theorem Boxed.move (h : Boxed s) (hm : Move s t s') : Boxed s' := by
  cases hm with
  | @boxNew msg a hpc ha =>
    -- The address is free, so the new box is none of the old ones.
    have hnew : ∀ b, s.heap b ≠ none → b ≠ a ∧
        Function.update s.heap a (some msg) b ≠ none := by
      intro b hb
      have hne : b ≠ a := fun he => hb (he ▸ ha)
      rw [Function.update_of_ne hne]
      exact ⟨hne, hb⟩
    refine h.update h.nodup (fun b hb => (hnew b (h.queue b hb)).2) (fun u b _ hu => ?_)
      (fun b hb => ?_) (by simp) (by simp)
    · obtain ⟨hheap, hmem⟩ := h.hand u b hu
      exact ⟨(hnew b hheap).2, hmem⟩
    · cases hb
      refine ⟨?_, ?_, ?_⟩
      · show Function.update s.heap a (some msg) a ≠ none
        rw [Function.update_self]
        exact Option.some_ne_none msg
      · intro hmem
        exact (hnew a (h.queue a hmem)).1 rfl
      · intro u _ hu
        exact (hnew a (h.hand u a hu).1).1 rfl
  | @queueSend a hpc =>
    obtain ⟨hheap, hmem⟩ := h.hand t a (by rw [hpc]; rfl)
    refine h.update (Queue.nodup_send h.nodup hmem) (fun b hb => ?_) (fun u b hut hu => ?_)
      (fun b hb => ?_) (by simp) (by simp)
    · rcases Queue.mem_send.mp hb with hb | rfl
      · exact h.queue b hb
      · exact hheap
    · obtain ⟨hheap', hmem'⟩ := h.hand u b hu
      refine ⟨hheap', fun hb => ?_⟩
      rcases Queue.mem_send.mp hb with hb | rfl
      · exact hmem' hb
      · exact hut (h.unique u t b hu (by rw [hpc]; rfl))
    · cases hb
  | @queueRecv timeout a rest hpc hqueue =>
    -- The box was in the queue once, and in no hand.
    have hnodup := h.nodup
    rw [hqueue, List.nodup_cons] at hnodup
    have hin : ∀ b ∈ rest, b ∈ s.queue := by
      intro b hb
      rw [hqueue]
      exact List.mem_cons_of_mem a hb
    have ha : a ∈ s.queue := by
      rw [hqueue]
      exact List.mem_cons_self
    refine h.update hnodup.2 (fun b hb => h.queue b (hin b hb)) (fun u b _ hu => ?_)
      (fun b hb => ?_) (by simp) (by simp)
    · obtain ⟨hheap, hmem⟩ := h.hand u b hu
      exact ⟨hheap, fun hb => hmem (hin b hb)⟩
    · cases hb
      exact ⟨h.queue a ha, hnodup.1, fun u _ hu => (h.hand u a hu).2 ha⟩
  | recvFail hpc hqueue =>
    refine h.update h.nodup h.queue (fun u b _ hu => h.hand u b hu) (fun b hb => ?_)
      (by simp) (by simp)
    cases hb
  | @fromRaw a msg hpc ha =>
    -- The box that is freed is in no other hand and not in the queue.
    obtain ⟨-, hmem⟩ := h.hand t a (by rw [hpc]; rfl)
    refine h.update h.nodup (fun b hb => ?_) (fun u b hut hu => ?_) (fun b hb => ?_)
      (by simp) (by simp)
    · have hne : b ≠ a := fun he => hmem (he ▸ hb)
      show Function.update s.heap a none b ≠ none
      rw [Function.update_of_ne hne]
      exact h.queue b hb
    · have hne : b ≠ a := by
        rintro rfl
        exact hut (h.unique u t b hu (by rw [hpc]; rfl))
      show Function.update s.heap a none b ≠ none ∧ _
      rw [Function.update_of_ne hne]
      exact h.hand u b hu
    · cases hb
  | @fault a hpc ha => exact absurd ha (h.hand t a (by rw [hpc]; rfl)).1

/-- The boxes are at their places in every state of every run. -/
theorem Boxed.of_reachable (h : (unbounded Tid Addr T).Reachable s) : Boxed s := by
  refine h.invariant ?_ fun s a s' hi hs => ?_
  · refine ⟨List.nodup_nil, ?_, ?_, ?_, ?_, ?_⟩ <;> simp [unbounded, Queue.new, Pc.box]
  · cases hcall : a.isCall with
    | false => exact hi.move (.of_step hcall hs)
    | true =>
      obtain ⟨-, p, rfl, hp⟩ := call_eq hcall hs
      refine hi.update hi.nodup hi.queue (fun u b _ hu => hi.hand u b hu) (fun b hb => ?_) ?_ ?_
      all_goals rcases hp with ⟨msg, rfl⟩ | ⟨timeout, rfl⟩
      all_goals simp_all [Pc.box]

/-! ## One operation at a time -/

/-- The messages in the queue, oldest first. -/
def queued (s : St Tid Addr T) : List T := s.queue.filterMap s.heap

/-- `try_send` and `try_recv` are the calls with `NoWait`. -/
def Act.call (t : Tid) : FifoOp T → Act Tid Addr T
  | .push msg => .sendTimeout t msg .noWait
  | .pop => .recvTimeout t .noWait

/-- What the call of a thread has returned. -/
def Pc.result : Pc Addr T → Option (FifoRes T)
  | .returned o => some o.res
  | _ => none

/-- The threads as callers of `try_send` and `try_recv`. -/
def calls (Tid Addr T : Type) [DecidableEq Tid] [DecidableEq Addr] :
    Calls (St Tid Addr T) (Act Tid Addr T) Tid (FifoOp T) (FifoRes T) where
  system := unbounded Tid Addr T
  call := Act.call
  isCall := Act.isCall
  party := Act.tid
  atRest := St.atRest
  result s t := (s.pc t).result

/-- What an operation that was called in `s₀` has done in `s`, by the place of its thread. -/
def Did (s₀ s : St Tid Addr T) : FifoOp T → Pc Addr T → Prop
  | .push msg, .boxNew m => m = msg ∧ s.queue = s₀.queue ∧ s.heap = s₀.heap
  | .push msg, .queueSend a =>
    s₀.heap a = none ∧ s.queue = s₀.queue ∧ s.heap = Function.update s₀.heap a (some msg)
  | .push msg, .returned .sendOk =>
    ∃ a, s₀.heap a = none ∧ s.queue = Queue.send s₀.queue a ∧
      s.heap = Function.update s₀.heap a (some msg)
  | .pop, .queueRecv _ => s.queue = s₀.queue ∧ s.heap = s₀.heap
  | .pop, .returned .recvErr => s₀.queue = [] ∧ s.queue = s₀.queue ∧ s.heap = s₀.heap
  | .pop, .fromRaw a => s₀.queue = a :: s.queue ∧ s.heap = s₀.heap
  | .pop, .returned (.recvOk msg) =>
    ∃ a, s₀.queue = a :: s.queue ∧ s₀.heap a = some msg ∧
      s.heap = Function.update s₀.heap a none
  | _, _ => False

/-- The next operation of the thread. -/
theorem Did.move {op : FifoOp T} (h₀ : Boxed s₀) (h : Did s₀ s op (s.pc t))
    (hm : Move s t s') : Did s₀ s' op (s'.pc t) := by
  cases hm with
  | @boxNew msg a hpc ha =>
    rw [hpc] at h
    simp only [St.setPc, Function.update_self]
    cases op with
    | push m =>
      obtain ⟨rfl, hqueue, hheap⟩ := h
      exact ⟨hheap ▸ ha, hqueue, congrArg (Function.update · a (some msg)) hheap⟩
    | pop => exact h.elim
  | @queueSend a hpc =>
    rw [hpc] at h
    simp only [St.ret, St.setPc, Function.update_self]
    cases op with
    | push msg =>
      obtain ⟨ha, hqueue, hheap⟩ := h
      exact ⟨a, ha, congrArg (Queue.send · a) hqueue, hheap⟩
    | pop => exact h.elim
  | @queueRecv timeout a rest hpc hqueue =>
    rw [hpc] at h
    simp only [St.setPc, Function.update_self]
    cases op with
    | push msg => exact h.elim
    | pop => exact ⟨h.1.symm.trans hqueue, h.2⟩
  | recvFail hpc hqueue =>
    rw [hpc] at h
    simp only [St.ret, St.setPc, Function.update_self]
    cases op with
    | push msg => exact h.elim
    | pop => exact ⟨h.1.symm.trans hqueue, h.1, h.2⟩
  | @fromRaw a msg hpc ha =>
    rw [hpc] at h
    simp only [St.ret, St.setPc, Function.update_self]
    cases op with
    | push m => exact h.elim
    | pop =>
      obtain ⟨hqueue, hheap⟩ := h
      exact ⟨a, hqueue, hheap ▸ ha, congrArg (Function.update · a none) hheap⟩
  | @fault a hpc ha =>
    rw [hpc] at h
    cases op with
    | push m => exact h.elim
    | pop =>
      -- The pointer came out of the queue, so its box is allocated.
      obtain ⟨hqueue, hheap⟩ := h
      have hmem : a ∈ s₀.queue := by
        rw [hqueue]
        exact List.mem_cons_self
      exact absurd (hheap ▸ ha) (h₀.queue a hmem)

omit [DecidableEq Tid] [DecidableEq Addr] in
theorem atRest_congr (h : s.pc t = s'.pc t) : s.atRest t = s'.atRest t := by
  unfold St.atRest
  rw [h]

/-- An operation is inside a call, and only its thread moves. -/
theorem Move.frame (hm : Move s t s') :
    s.atRest t = false ∧ ∀ u, u ≠ t → s'.atRest u = s.atRest u := by
  constructor
  · unfold St.atRest
    cases hm <;> simp [*]
  · intro u hu
    apply atRest_congr
    cases hm <;> exact Function.update_of_ne hu _ _

/-- The call changes nothing but the place of its thread. -/
theorem Did.of_call {op : FifoOp T} (hs : (unbounded Tid Addr T).step s₀ (.call t op) = some s) :
    Did s₀ s op (s.pc t) ∧ ∀ u, u ≠ t → s.atRest u = s₀.atRest u := by
  cases op with
  | push msg =>
    obtain ⟨-, hs⟩ := Option.ite_none_right_eq_some.mp hs
    cases hs
    simp only [St.setPc, Function.update_self]
    exact ⟨⟨rfl, rfl, rfl⟩, fun u hu => atRest_congr (Function.update_of_ne hu _ _)⟩
  | pop =>
    obtain ⟨-, hs⟩ := Option.ite_none_right_eq_some.mp hs
    cases hs
    simp only [St.setPc, Function.update_self]
    exact ⟨⟨rfl, rfl⟩, fun u hu => atRest_congr (Function.update_of_ne hu _ _)⟩

omit [DecidableEq Tid] in
/-- A new box is at the end of the queue. -/
theorem queued_send (h : Boxed s₀) {a : Addr} {msg : T} (ha : s₀.heap a = none)
    (hqueue : s.queue = Queue.send s₀.queue a)
    (hheap : s.heap = Function.update s₀.heap a (some msg)) :
    queued s = queued s₀ ++ [msg] := by
  have hold : ∀ b ∈ s₀.queue, Function.update s₀.heap a (some msg) b = s₀.heap b := by
    intro b hb
    have hne : b ≠ a := fun he => h.queue b hb (he ▸ ha)
    exact Function.update_of_ne hne _ _
  unfold queued
  rw [hqueue, hheap, Queue.send, List.filterMap_append, List.filterMap_congr hold]
  simp

omit [DecidableEq Tid] in
/-- The oldest box is taken out and freed. -/
theorem queued_recv (h : Boxed s₀) {a : Addr} {msg : T} (hqueue : s₀.queue = a :: s.queue)
    (ha : s₀.heap a = some msg) (hheap : s.heap = Function.update s₀.heap a none) :
    queued s₀ = msg :: queued s := by
  have hnodup := h.nodup
  rw [hqueue, List.nodup_cons] at hnodup
  have hrest : ∀ b ∈ s.queue, s.heap b = s₀.heap b := by
    intro b hb
    have hne : b ≠ a := fun he => hnodup.1 (he ▸ hb)
    rw [hheap, Function.update_of_ne hne]
  unfold queued
  rw [hqueue, List.filterMap_cons_some ha, List.filterMap_congr hrest]

omit [DecidableEq Tid] in
/-- What an operation has done when it returns is an operation of the FIFO. -/
theorem Did.specified {op : FifoOp T} {o : Outcome T} (h₀ : Boxed s₀)
    (h : Did s₀ s op (.returned o)) : Specified (fifo none) (queued s₀) op o.res (queued s) := by
  cases op with
  | push msg =>
    cases o with
    | sendOk =>
      obtain ⟨a, ha, hqueue, hheap⟩ := h
      rw [queued_send h₀ ha hqueue hheap]
      exact Lib.fifo_push_of_room (Option.some_ne_none _).symm
    | sendErr | recvOk | recvErr => exact h.elim
  | pop =>
    cases o with
    | recvErr =>
      obtain ⟨hempty, hqueue, -⟩ := h
      unfold queued
      rw [hqueue, hempty]
      rfl
    | recvOk msg =>
      obtain ⟨a, hqueue, ha, hheap⟩ := h
      rw [queued_recv h₀ hqueue ha hheap]
      rfl
    | sendOk | sendErr => exact h.elim

omit [DecidableEq Tid] [DecidableEq Addr] in
theorem Pc.of_result {p : Pc Addr T} {r : FifoRes T} (h : p.result = some r) :
    ∃ o, p = .returned o ∧ o.res = r := by
  unfold Pc.result at h
  split at h
  · rename_i o
    exact ⟨o, rfl, Option.some.inj h⟩
  · cases h

omit [DecidableEq Tid] [DecidableEq Addr] in
theorem atRest_of_returned {o : Outcome T} (h : s.pc t = .returned o) : s.atRest t = true := by
  unfold St.atRest
  rw [h]

/-- Without overlapping operations the channel acts as the FIFO without a bound. -/
theorem actsAs : ActsAs (calls Tid Addr T).Operation (fun q op => fifo none q op.2)
    (calls Tid Addr T).Quiet queued := by
  refine Calls.actsAs (fun s₀ op t s => Did s₀ s op (s.pc t)) ?_ ?_ ?_ ?_
  · intro s₀ t op s hs
    exact Did.of_call hs
  · intro s a s' ha hs
    exact (Move.of_step ha hs).frame
  · intro s₀ op s a s' hq hdid ha hs
    exact hdid.move (.of_reachable hq.1) (.of_step ha hs)
  · intro s₀ t op s r hq hdid hr
    obtain ⟨o, hpc, rfl⟩ := Pc.of_result hr
    rw [hpc] at hdid
    exact ⟨atRest_of_returned hpc, hdid.specified (.of_reachable hq.1)⟩

/-- A `try_send` completes when there is an address for its box. -/
theorem trySend_completes (hq : (calls Tid Addr T).Quiet s) (t : Tid) (msg : T) {a : Addr}
    (ha : s.heap a = none) : ∃ r s', (calls Tid Addr T).Operation s (t, .push msg) r s' := by
  refine ⟨.pushed, Calls.Operation.of_exec [.boxNew t a, .next t] (by simp [calls, Act.isCall]) ?_⟩
  have hrest : s.atRest t = true := hq.2 t
  simp [System.exec, calls, unbounded, Act.call, St.sendTimeout, hrest, St.boxNew, ha, St.next,
    Pc.result, Outcome.res]

/-- A `try_recv` completes. -/
theorem tryRecv_completes (hq : (calls Tid Addr T).Quiet s) (t : Tid) :
    ∃ r s', (calls Tid Addr T).Operation s (t, .pop) r s' := by
  have hrest : s.atRest t = true := hq.2 t
  cases hqueue : s.queue with
  | nil =>
    have htimeout : Timeout.noWait ≠ Timeout.forever := by decide
    refine ⟨.empty, Calls.Operation.of_exec [.next t] (by simp [calls, Act.isCall]) ?_⟩
    simp [System.exec, calls, unbounded, Act.call, St.recvTimeout, hrest, St.next, hqueue,
      Queue.recv, htimeout, Pc.result, Outcome.res]
  | cons a rest =>
    have hmem : a ∈ s.queue := by
      rw [hqueue]
      exact List.mem_cons_self
    obtain ⟨msg, hmsg⟩ := Option.ne_none_iff_exists'.mp ((Boxed.of_reachable hq.1).queue a hmem)
    refine ⟨.popped msg, Calls.Operation.of_exec [.next t, .next t]
      (by simp [calls, Act.isCall]) ?_⟩
    simp [System.exec, calls, unbounded, Act.call, St.recvTimeout, hrest, St.next, hqueue,
      Queue.recv, hmsg, Pc.result, Outcome.res]

end Unbounded

end ZephyrRust.Channel
