import ZephyrRust.Mutex
import ZephyrRust.Philosophers

/-!
# `ZephyrRust.Philosophers.CondSync`: a mutex and a condition variable for all forks

`samples/philosophers/src/condsync.rs`. `CondSync` is a monitor: a flag for each fork, behind one
`sync::Mutex`, and one `sync::Condvar`. A `take` waits on the condition variable while the flag
of its fork is set. A `release` clears the flag and wakes everybody.

The mutex and the condition variable are those of `ZephyrRust.Mutex`, with the philosophers as
their threads. Each statement of a method is a step, and so is each operation inside `lock`,
`wait` and the drop of the guard. A wait can end without a notification.
-/

set_option autoImplicit false

namespace ZephyrRust.Philosophers

/-- The statement of `take` or `release` that a philosopher is at. -/
inductive CondPc
  | atRest
  /-- `take`: before `self.lock.lock()`. -/
  | take (index : Fork)
  /-- `take`: in `self.lock.lock()` or `self.cond.wait(lock)`, and then at the condition of the
  loop. -/
  | test (index : Fork)
  /-- `take`: after the loop, at `lock[index] = true`. -/
  | set (index : Fork)
  /-- `release`: before `self.lock.lock()`. -/
  | release (index : Fork)
  /-- `release`: in `self.lock.lock()`, and then at `lock[index] = false`. -/
  | clear (index : Fork)
  /-- `release`: at `self.cond.notify_all()`. -/
  | notify
  /-- At the end of a method, where its guard goes out of scope. -/
  | drop
  /-- In the drop of the guard. -/
  | dropping
  deriving DecidableEq

/-- `CondSync`, and the calls of its methods. -/
structure CondSync where
  sync : Sync.St Phil Unit Unit (Fork → Bool)
  pc : Phil → CondPc

namespace CondSync

/-- Philosopher `n` goes on to the statement `p`. -/
def goto (x : CondSync) (n : Phil) (p : CondPc) : CondSync :=
  { x with pc := Function.update x.pc n p }

/-- The flags behind the mutex. -/
def flags (x : CondSync) : Fork → Bool := (x.sync.mutex ()).data

/-- The call of `lock` or `wait` of philosopher `n` has returned its guard. -/
def hasGuard (x : CondSync) (n : Phil) : Bool :=
  decide (x.sync.pc n = .returned (.guard ()))

/-- The next statement of the method that philosopher `n` is in. The calls of `lock`, `wait` and
`drop` begin here. -/
def statement (x : CondSync) (n : Phil) : Option CondSync :=
  let after (p : CondPc) (s : Sync.St Phil Unit Unit (Fork → Bool)) : CondSync :=
    goto { x with sync := s } n p
  match x.pc n with
  | .atRest => none
  | .take i => (x.sync.call .lock n ()).map (after (.test i))
  | .test i =>
    if x.hasGuard n then
      if x.flags i then (x.sync.wait n () ()).map (after (.test i))
      else some (after (.set i) x.sync)
    else none
  | .set i => (x.sync.derefMut n () (Function.update x.flags i true)).map (after .drop)
  | .release i => (x.sync.call .lock n ()).map (after (.clear i))
  | .clear i =>
    if x.hasGuard n then
      (x.sync.derefMut n () (Function.update x.flags i false)).map (after .notify)
    else none
  -- No predictable waiter, so everybody is woken.
  | .notify => some (after .drop (x.sync.notifyAll ()))
  | .drop => (x.sync.drop n ()).map (after .dropping)
  | .dropping => if x.sync.pc n = .returned .unit then some (after .atRest x.sync) else none

end CondSync

/-- The actions: the next statement of a method, the next operation of the call of the mutex or
the condition variable that it is in, and a wait that ends without a notification. -/
inductive CondAct
  | statement (n : Phil)
  | next (n : Phil)
  | spurious (n : Phil)

/-- `CondSync::new`, and its methods. -/
def condSync : ForkSync CondSync CondAct where
  init :=
    { sync := (Sync.threads Phil Unit fun (_ : Unit) (_ : Fork) => false).init
      pc := fun _ => .atRest }
  call x n op :=
    match op with
    | .take index => x.goto n (.take index)
    | .release index => x.goto n (.release index)
  step x
    | .statement n => x.statement n
    | .next n => (x.sync.next n).map fun s => { x with sync := s }
    | .spurious n => (x.sync.spurious () n).map fun s => { x with sync := s }
  atRest x n := decide (x.pc n = .atRest)

end ZephyrRust.Philosophers
