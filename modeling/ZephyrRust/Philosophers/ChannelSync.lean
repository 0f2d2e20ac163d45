import ZephyrRust.Lib.Sequential
import ZephyrRust.Philosophers

/-!
# `ZephyrRust.Philosophers.ChannelSync`: a server thread behind channels

`samples/philosophers/src/channel.rs`. The forks belong to a server thread. A philosopher sends it
a `Command` over the command channel. A `take` then waits for a reply on the channel of the
philosopher, and a `release` has no reply.

The channels are FIFOs of one capacity: 1 under `CONFIG_USE_BOUNDED_CHANNELS`, and no bound
otherwise. A `send` waits while its channel is full, and a `recv` while it is empty. The steps
inside these operations are in `ZephyrRust.Channel`. The `Sender` of a reply channel is the name
of its philosopher.
-/

set_option autoImplicit false

namespace ZephyrRust.Philosophers

open ZephyrRust.Lib (fifo)

/-- `Command`. -/
inductive Command
  | acquire (fork : Fork) (reply : Phil)
  | release (fork : Fork)
  deriving DecidableEq

/-- `ChannelFork`. -/
inductive ChannelFork
  | free
  /-- The fork is in use, nobody is waiting. -/
  | inUse
  /-- The fork is in use, and someone is waiting on it. -/
  | inUseWait (waiter : Phil)
  deriving DecidableEq

/-- The panics of `ChannelFork`. -/
inductive ChannelPanic
  /-- "Mutliple waiters on fork" -/
  | multipleWaiters
  /-- "Release of fork that is not in use" -/
  | notInUse
  deriving DecidableEq

/-- The statement of `take` or `release` that a philosopher is at. -/
inductive ChannelPc
  | atRest
  /-- `self.command.send(Command::Acquire(index, self.reply_send.clone()))` -/
  | sendAcquire (index : Fork)
  /-- `self.reply_recv.recv()` -/
  | recvReply (index : Fork)
  /-- `self.command.send(Command::Release(index))` -/
  | sendRelease (index : Fork)
  deriving DecidableEq

/-- The first statement of a method. -/
def ChannelPc.enter : ForkOp → ChannelPc
  | .take index => .sendAcquire index
  | .release index => .sendRelease index

/-- Where `channel_thread` is. -/
inductive ServerPc
  /-- `cq_recv.recv()` -/
  | recv
  /-- In `acquire` or `release` of a fork, at the `send(())` to a philosopher. -/
  | reply (fork : Fork) (reply : Phil)
  | panicked (p : ChannelPanic)
  deriving DecidableEq

/-- The channels, the forks of the server, the server and the calls of the philosophers. -/
structure ChannelSync where
  command : List Command
  replies : Phil → List Unit
  forks : Fork → ChannelFork
  server : ServerPc
  pc : Phil → ChannelPc

namespace ChannelSync

/-- The capacity of the channels: `channel::bounded(1)` or `channel::unbounded()`. -/
def capacity (bounded : Bool) : Option Nat := if bounded then some 1 else none

/-- `Sender::send` at a moment when it does not wait. -/
def send {T : Type} (bounded : Bool) (q : List T) (msg : T) : Option (List T) :=
  match fifo (capacity bounded) q (.push msg) with
  | (.pushed, q') => some q'
  | _ => none

/-- `Receiver::recv` at a moment when it does not wait. -/
def recv {T : Type} (bounded : Bool) (q : List T) : Option (T × List T) :=
  match fifo (capacity bounded) q .pop with
  | (.popped msg, q') => some (msg, q')
  | _ => none

variable (bounded : Bool) (x : ChannelSync)

/-- The next statement of a method of philosopher `n`. -/
def client (n : Phil) : Option ChannelSync :=
  match x.pc n with
  | .atRest => none
  | .sendAcquire i =>
    (send bounded x.command (.acquire i n)).map fun q =>
      { x with command := q, pc := Function.update x.pc n (.recvReply i) }
  | .recvReply _ =>
    (recv bounded (x.replies n)).map fun r =>
      { x with
        replies := Function.update x.replies n r.2
        pc := Function.update x.pc n .atRest }
  | .sendRelease i =>
    (send bounded x.command (.release i)).map fun q =>
      { x with command := q, pc := Function.update x.pc n .atRest }

/-- `ChannelFork::acquire`, up to the reply. -/
def acquire (i : Fork) (reply : Phil) : ChannelSync :=
  match x.forks i with
  | .free => { x with server := .reply i reply }
  | .inUse => { x with forks := Function.update x.forks i (.inUseWait reply) }
  | .inUseWait _ => { x with server := .panicked .multipleWaiters }

/-- `ChannelFork::release`, up to the reply. -/
def release (i : Fork) : ChannelSync :=
  match x.forks i with
  | .free => { x with server := .panicked .notInUse }
  | .inUse => { x with forks := Function.update x.forks i .free }
  | .inUseWait waiter => { x with server := .reply i waiter }

/-- The next step of `channel_thread`. -/
def serve : Option ChannelSync :=
  match x.server with
  | .recv =>
    (recv bounded x.command).map fun r =>
      let x := { x with command := r.2 }
      match r.1 with
      | .acquire fork reply => x.acquire fork reply
      | .release fork => x.release fork
  | .reply i n =>
    (send bounded (x.replies n) ()).map fun q =>
      { x with
        replies := Function.update x.replies n q
        forks := Function.update x.forks i .inUse
        server := .recv }
  | .panicked _ => none

end ChannelSync

/-- The actions: the next statement of a method, and the next step of the server. -/
inductive ChannelAct
  | client (n : Phil)
  | server

/-- `get_channel_syncer`, with the methods of `ChannelSync`. -/
def channelSync (bounded : Bool) : ForkSync ChannelSync ChannelAct where
  init :=
    { command := []
      replies := fun _ => []
      forks := fun _ => .free
      server := .recv
      pc := fun _ => .atRest }
  call x n op := { x with pc := Function.update x.pc n (.enter op) }
  step x
    | .client n => x.client bounded n
    | .server => x.serve bounded
  atRest x n := decide (x.pc n = .atRest)

end ZephyrRust.Philosophers
