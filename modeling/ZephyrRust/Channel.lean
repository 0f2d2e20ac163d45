import Mathlib.Data.List.FinRange
import Mathlib.Logic.Function.Basic
import ZephyrRust.Lib.Transition
import ZephyrRust.Sys.Queue
import ZephyrRust.Time

/-!
# `ZephyrRust.Channel`: the bounded channel

`zephyr/src/sync/channel.rs`, the bounded flavor. `bounded(cap)` allocates `cap` message
slots and puts them all in the `free` queue. A send takes a slot out of `free`, writes the
message into it and appends the slot to `chan`. A receive takes a slot out of `chan`, reads
the message and gives the slot back to `free`. The pointers to the slots that travel through
the two kernel queues are the numbers of the slots here.

The model is a step function over any number of threads, each of which performs one
`send_timeout` or `recv_timeout` after another, through any clone of the `Sender` or the
`Receiver`. Every step is one operation of the source: a call on one of the queues, or the
write or the read of a slot.

`puts`, `takes` and `taken` record the history. No step reads them.
-/

set_option autoImplicit false

namespace ZephyrRust.Channel

open ZephyrRust.Lib (System)
open ZephyrRust.Sys (Queue)

/-- `Bounded<T>`. A slot is a `MaybeUninit`: `none` is a slot that was never written. -/
structure Bounded (T : Type) (cap : Nat) where
  slots : Fin cap → Option T
  free : Queue (Fin cap)
  chan : Queue (Fin cap)

/-- `Bounded::new`: the loop adds every slot to the free list. -/
def Bounded.new (T : Type) (cap : Nat) : Bounded T cap where
  slots _ := none
  free := (List.finRange cap).foldl Queue.send Queue.new
  chan := Queue.new

/-- `bounded`. It panics with "Zero capacity queues are not supported on Zephyr" on the
capacity 0. -/
def bounded (T : Type) (cap : Nat) : Option (Bounded T cap) :=
  if cap = 0 then none else some (Bounded.new T cap)

/-- What `send_timeout` and `recv_timeout` return. A `SendError` carries the message. -/
inductive Outcome (T : Type)
  | sendOk
  | sendErr (msg : T)
  | recvOk (msg : T)
  | recvErr
  deriving DecidableEq

/-- Where a thread is. -/
inductive Pc (T : Type) (cap : Nat)
  | idle
  /-- `send_timeout`: `chan.free.recv(timeout)`. -/
  | freeRecv (msg : T) (timeout : Timeout)
  /-- `send_timeout`: `buf.write(Message::new(msg))`. -/
  | write (msg : T) (buf : Fin cap)
  /-- `send_timeout`: `chan.chan.send(buf)`. The message is in the slot. It is named here to
  say what was put into `chan`. -/
  | chanSend (msg : T) (buf : Fin cap)
  /-- `recv_timeout`: `chan.chan.recv(timeout)`. -/
  | chanRecv (timeout : Timeout)
  /-- `recv_timeout`: `buf.read()`. -/
  | read (buf : Fin cap)
  /-- `recv_timeout`: `chan.free.send(buf)`, with the message in hand. -/
  | freeSend (msg : T) (buf : Fin cap)
  /-- The call has returned. -/
  | returned (r : Outcome T)
  /-- A read of a slot that was never written. -/
  | fault

/-- The channel and the threads that use it. -/
structure St (Tid T : Type) (cap : Nat) where
  ch : Bounded T cap
  pc : Tid → Pc T cap
  /-- The messages put into `chan`, in the order of the `chan.send` calls. -/
  puts : List T
  /-- The contents of the slots taken out of `chan`, in the order of the `chan.recv`
  calls. -/
  takes : List (Option T)
  /-- The content of the slot that a thread took out of `chan` last. -/
  taken : Tid → Option T

variable {Tid T : Type} {cap : Nat} [DecidableEq Tid]

namespace St

variable (s : St Tid T cap)

@[simp] def setPc (t : Tid) (p : Pc T cap) : St Tid T cap :=
  { s with pc := Function.update s.pc t p }

/-- The call of thread `t` returns `r`. -/
@[simp] def ret (t : Tid) (r : Outcome T) : St Tid T cap :=
  s.setPc t (.returned r)

/-- A thread that is in no call. -/
def atRest (t : Tid) : Bool :=
  match s.pc t with
  | .idle => true
  | .returned _ => true
  | _ => false

/-- `Sender::send_timeout`. `send` and `try_send` are the calls with `Forever` and
`NoWait`. -/
def sendTimeout (t : Tid) (msg : T) (timeout : Timeout) : Option (St Tid T cap) :=
  if s.atRest t then some (s.setPc t (.freeRecv msg timeout)) else none

/-- `Receiver::recv_timeout`. `recv` and `try_recv` are the calls with `Forever` and
`NoWait`. -/
def recvTimeout (t : Tid) (timeout : Timeout) : Option (St Tid T cap) :=
  if s.atRest t then some (s.setPc t (.chanRecv timeout)) else none

/-- The next operation of the call that thread `t` is in. A `recv` on an empty queue waits,
and it returns null when its timeout expires, which `Forever` never does. -/
def next (t : Tid) : Option (St Tid T cap) :=
  match s.pc t with
  | .idle => none
  | .freeRecv msg timeout =>
    -- The message comes back in the error when no slot gets free in time.
    match Queue.recv s.ch.free with
    | some (buf, rest) => some ({ s with ch.free := rest }.setPc t (.write msg buf))
    | none => if timeout = .forever then none else some (s.ret t (.sendErr msg))
  | .write msg buf =>
    some ({ s with ch.slots := Function.update s.ch.slots buf (some msg) }.setPc t
      (.chanSend msg buf))
  -- The message is in transit from here on.
  | .chanSend msg buf =>
    some ({ s with ch.chan := Queue.send s.ch.chan buf, puts := s.puts ++ [msg] }.ret t
      .sendOk)
  | .chanRecv timeout =>
    match Queue.recv s.ch.chan with
    | some (buf, rest) =>
      some ({ s with
          ch.chan := rest
          takes := s.takes ++ [s.ch.slots buf]
          taken := Function.update s.taken t (s.ch.slots buf) }.setPc t (.read buf))
    | none => if timeout = .forever then none else some (s.ret t .recvErr)
  | .read buf =>
    -- `MaybeUninit` is not checked in the source. A read of a fresh slot is a fault here.
    match s.ch.slots buf with
    | some msg => some (s.setPc t (.freeSend msg buf))
    | none => some (s.setPc t .fault)
  -- The slot is free before the receive returns.
  | .freeSend msg buf =>
    some ({ s with ch.free := Queue.send s.ch.free buf }.ret t (.recvOk msg))
  | .returned _ => none
  | .fault => none

end St

/-- The actions: a thread calls `send_timeout` or `recv_timeout`, or performs the next
operation of its call. -/
inductive Act (Tid T : Type)
  | sendTimeout (t : Tid) (msg : T) (timeout : Timeout)
  | recvTimeout (t : Tid) (timeout : Timeout)
  | next (t : Tid)

/-- The threads of the type `Tid` on the channel `ch`. -/
def channel (Tid : Type) [DecidableEq Tid] (ch : Bounded T cap) :
    System (St Tid T cap) (Act Tid T) where
  init := { ch := ch, pc := fun _ => .idle, puts := [], takes := [], taken := fun _ => none }
  step s
    | .sendTimeout t msg timeout => s.sendTimeout t msg timeout
    | .recvTimeout t timeout => s.recvTimeout t timeout
    | .next t => s.next t

end ZephyrRust.Channel
