import ZephyrRust.Channel

/-!
# `ZephyrRust.Channel.Unbounded`: the unbounded channel

`zephyr/src/sync/channel.rs`, the unbounded flavor. There are no slots and no free list. A
send moves its message into a new `Box` and appends the raw pointer to one kernel queue. A
receive takes a pointer out of the queue, turns it back into the `Box`, moves the message out
and frees the box.

The boxes are in a heap whose addresses are used again after they are freed. The allocator
chooses any address without a box. A thread does not get past `Box::new` when there is none,
because the program ends there.

As in `ZephyrRust.Channel`, every step is one operation of the source, by any of the threads.
-/

set_option autoImplicit false

namespace ZephyrRust.Channel.Unbounded

open ZephyrRust.Lib (System)
open ZephyrRust.Sys (Queue)

/-- Where a thread is. -/
inductive Pc (Addr T : Type)
  | idle
  /-- `send_timeout`: `Box::into_raw(Box::new(Message::new(msg)))`. -/
  | boxNew (msg : T)
  /-- `send_timeout`: `queue.send(msg)`. -/
  | queueSend (box : Addr)
  /-- `recv_timeout`: `queue.recv(timeout)`. -/
  | queueRecv (timeout : Timeout)
  /-- `recv_timeout`: `Box::from_raw(msg)`, out of which `msg.data` moves. -/
  | fromRaw (box : Addr)
  /-- The call has returned. -/
  | returned (r : Outcome T)
  /-- A `Box::from_raw` of a pointer to no box. -/
  | fault

/-- The channel and the threads that use it. -/
structure St (Tid Addr T : Type) where
  queue : Queue Addr
  /-- The boxes with the messages. -/
  heap : Addr → Option T
  pc : Tid → Pc Addr T

variable {Tid Addr T : Type} [DecidableEq Tid] [DecidableEq Addr]

namespace St

variable (s : St Tid Addr T)

@[simp] def setPc (t : Tid) (p : Pc Addr T) : St Tid Addr T :=
  { s with pc := Function.update s.pc t p }

/-- The call of thread `t` returns `r`. -/
@[simp] def ret (t : Tid) (r : Outcome T) : St Tid Addr T :=
  s.setPc t (.returned r)

/-- A thread that is in no call. -/
def atRest (t : Tid) : Bool :=
  match s.pc t with
  | .idle => true
  | .returned _ => true
  | _ => false

/-- `Sender::send_timeout`. It does not look at the timeout. -/
def sendTimeout (t : Tid) (msg : T) (_timeout : Timeout) : Option (St Tid Addr T) :=
  if s.atRest t then some (s.setPc t (.boxNew msg)) else none

/-- `Receiver::recv_timeout`. -/
def recvTimeout (t : Tid) (timeout : Timeout) : Option (St Tid Addr T) :=
  if s.atRest t then some (s.setPc t (.queueRecv timeout)) else none

/-- `Box::new` in the call of thread `t`, at an address that is free. -/
def boxNew (t : Tid) (a : Addr) : Option (St Tid Addr T) :=
  match s.pc t, s.heap a with
  | .boxNew msg, none =>
    some ({ s with heap := Function.update s.heap a (some msg) }.setPc t (.queueSend a))
  | _, _ => none

/-- The next operation of the call that thread `t` is in, `Box::new` apart. -/
def next (t : Tid) : Option (St Tid Addr T) :=
  match s.pc t with
  | .queueSend a => some ({ s with queue := Queue.send s.queue a }.ret t .sendOk)
  | .queueRecv timeout =>
    match Queue.recv s.queue with
    | some (a, rest) => some ({ s with queue := rest }.setPc t (.fromRaw a))
    | none => if timeout = .forever then none else some (s.ret t .recvErr)
  | .fromRaw a =>
    match s.heap a with
    | some msg => some ({ s with heap := Function.update s.heap a none }.ret t (.recvOk msg))
    | none => some (s.setPc t .fault)
  | .idle => none
  | .boxNew _ => none
  | .returned _ => none
  | .fault => none

end St

/-- The actions: a thread calls `send_timeout` or `recv_timeout`, allocates its box, or
performs the next operation of its call. -/
inductive Act (Tid Addr T : Type)
  | sendTimeout (t : Tid) (msg : T) (timeout : Timeout)
  | recvTimeout (t : Tid) (timeout : Timeout)
  | boxNew (t : Tid) (a : Addr)
  | next (t : Tid)

/-- The threads of the type `Tid` on a channel from `unbounded`. -/
def unbounded (Tid Addr T : Type) [DecidableEq Tid] [DecidableEq Addr] :
    System (St Tid Addr T) (Act Tid Addr T) where
  init := { queue := Queue.new, heap := fun _ => none, pc := fun _ => .idle }
  step s
    | .sendTimeout t msg timeout => s.sendTimeout t msg timeout
    | .recvTimeout t timeout => s.recvTimeout t timeout
    | .boxNew t a => s.boxNew t a
    | .next t => s.next t

end ZephyrRust.Channel.Unbounded
