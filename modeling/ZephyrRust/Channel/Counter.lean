import Mathlib.Logic.Function.Basic
import ZephyrRust.Lib.Transition

/-!
# `ZephyrRust.Channel.Counter`: the handles of a channel

`zephyr/src/sync/channel/counter.rs`, and the `Clone` and `Drop` of `Sender` and `Receiver` in
`zephyr/src/sync/channel.rs`. The handles of a channel share a `Counter` with one count for the
senders and one for the receivers. The drop that takes a count to 0 calls the closure `disconnect`
of its drop site, and after that the second of the two kinds would free the channel.

The model is one channel with any number of threads that clone, drop and use its handles. The
channel itself is a transition system that this module knows nothing about. A clone is one step,
because its only shared operation is the `fetch_add`. A drop starts with its `fetch_sub`, and the
operations after it are steps of their own. `live` is the number of the handles that the program
has. No operation reads it except to find a handle.
-/

set_option autoImplicit false

namespace ZephyrRust.Channel.Counter

open ZephyrRust.Lib (System)

/-- The two kinds of handles. -/
inductive Side
  | sender
  | receiver
  deriving DecidableEq

/-- The handles at the other end. -/
def Side.other : Side → Side
  | .sender => .receiver
  | .receiver => .sender

/-- `SenderFlavor` and `ReceiverFlavor`. -/
inductive Flavor
  | unbounded
  | bounded
  deriving DecidableEq

/-- The closure that a drop gives to `release`: a panic with its message. -/
def disconnect : Flavor → Side → Except String Bool
  | .unbounded, .sender => .error "Unbounded queues cannot currently be dropped"
  | .bounded, .sender => .error "Bounded queues cannot currently be dropped"
  | .unbounded, .receiver => .error "Unnbounded channel cannot be dropped"
  | .bounded, .receiver => .error "Bounded channels cannot be dropped"

/-- Where a thread is in a clone or a drop. -/
inductive Pc
  | idle
  /-- The count was 1: `disconnect(&self.counter().chan)` is next. -/
  | disconnect (side : Side)
  /-- `self.counter().destroy.swap(true, Ordering::AcqRel)` is next. -/
  | destroy
  /-- `drop(unsafe { Box::from_raw(self.counter.as_ptr()) })` is next. -/
  | free
  /-- `unimplemented!()` in `acquire`. -/
  | unimplemented
  /-- The panic of a drop. -/
  | panicked (message : String)
  deriving DecidableEq

/-- `Counter<C>`, and the handles to it. -/
structure St (Tid C : Type) where
  /-- `senders` and `receivers`. -/
  count : Side → Nat
  destroy : Bool
  chan : C
  /-- The `Counter` is dropped. -/
  freed : Bool
  live : Side → Nat
  pc : Tid → Pc

variable {Tid C A : Type} [DecidableEq Tid]

namespace St

variable (s : St Tid C)

@[simp] def setPc (t : Tid) (pc : Pc) : St Tid C := { s with pc := Function.update s.pc t pc }

/-- `acquire`. `isizeMax` is `isize::MAX`. -/
def clone (isizeMax : Nat) (t : Tid) (side : Side) : Option (St Tid C) :=
  if s.pc t = .idle ∧ 0 < s.live side then
    let s' := { s with count := Function.update s.count side (s.count side + 1) }
    if isizeMax < s.count side then some (s'.setPc t .unimplemented)
    else some { s' with live := Function.update s.live side (s.live side + 1) }
  else none

/-- The start of `release`: the `fetch_sub`. -/
def drop (t : Tid) (side : Side) : Option (St Tid C) :=
  if s.pc t = .idle ∧ 0 < s.live side then
    let s' := { s with
      count := Function.update s.count side (s.count side - 1)
      live := Function.update s.live side (s.live side - 1) }
    if s.count side = 1 then some (s'.setPc t (.disconnect side)) else some s'
  else none

/-- The rest of `release`. -/
def next (flavor : Flavor) (t : Tid) : Option (St Tid C) :=
  match s.pc t with
  | .disconnect side =>
    match Counter.disconnect flavor side with
    | .error message => some (s.setPc t (.panicked message))
    | .ok _ => some (s.setPc t .destroy)
  | .destroy =>
    let s' := { s with destroy := true }
    if s.destroy then some (s'.setPc t .free) else some (s'.setPc t .idle)
  | .free => some ({ s with freed := true }.setPc t .idle)
  | .idle | .unimplemented | .panicked _ => none

/-- An operation on the channel through a handle. -/
def op (M : System C A) (side : Side) (a : A) : Option (St Tid C) :=
  if 0 < s.live side ∧ s.freed = false then
    (M.step s.chan a).map fun chan => { s with chan := chan }
  else none

end St

/-- The actions of the program. -/
inductive Act (Tid A : Type)
  | clone (t : Tid) (side : Side)
  | drop (t : Tid) (side : Side)
  | next (t : Tid)
  | op (side : Side) (a : A)

/-- `counter::new`: a channel with one `Sender` and one `Receiver`. -/
def handles (Tid : Type) [DecidableEq Tid] (flavor : Flavor) (isizeMax : Nat) (M : System C A) :
    System (St Tid C) (Act Tid A) where
  init :=
    { count := fun _ => 1
      destroy := false
      chan := M.init
      freed := false
      live := fun _ => 1
      pc := fun _ => .idle }
  step s
    | .clone t side => s.clone isizeMax t side
    | .drop t side => s.drop t side
    | .next t => s.next flavor t
    | .op side a => s.op M side a

end ZephyrRust.Channel.Counter
