import Mathlib.Logic.Function.Basic
import ZephyrRust.Lib.Transition
import ZephyrRust.Sys.Mutex

/-!
# `ZephyrRust.Mutex`: the mutex and the condition variable

`zephyr/src/sync/mutex.rs`. A `sync::Mutex` is a kernel mutex `inner`, the flag `locked` and
the data. The kernel mutex is recursive, so a thread that holds a guard gets through the
inner lock once more. The flag rejects that attempt. `Condvar::wait` clears the flag, gives
up the inner mutex inside `k_condvar_wait`, and sets the flag when it owns the inner mutex
again.

The model is a step function over any number of threads, mutexes and condition variables.
Every step is one operation of the source: a kernel call, or an access to the flag.
`k_condvar_wait` is three steps: the thread releases one level and blocks, it is woken by
a notification or for no reason, and it locks the mutex again.

A `MutexGuard` is not `Send`, so it stays with the thread that locked: `guards t m` counts the
guards of mutex `m` that thread `t` has in its variables. A guard that was passed to `drop` or
to `wait` belongs to the call. The panics abort, so a thread that panics makes no further step.
-/

set_option autoImplicit false

namespace ZephyrRust.Sync

open ZephyrRust.Lib (System)

/-- `sync::Mutex<T>`. -/
structure Mutex (Tid T : Type) where
  inner : Sys.Mutex Tid
  locked : Bool
  data : T
  deriving DecidableEq

/-- `Mutex::new`. -/
def Mutex.new {Tid T : Type} (t : T) : Mutex Tid T where
  inner := Sys.Mutex.new
  locked := false
  data := t

/-- The two ways to lock. `Mutex::lock` passes `Forever` to the kernel and panics when it is
rejected. `Mutex::try_lock` passes `NoWait` and returns `WouldBlock`. -/
inductive Call
  | lock
  | tryLock
  deriving DecidableEq

/-- What a call returns. -/
inductive Outcome (M : Type)
  /-- `Ok` with a guard, from `lock`, `try_lock` or `wait`. -/
  | guard (m : M)
  /-- `Err(TryLockError::WouldBlock)`. -/
  | wouldBlock
  /-- A `drop` has no result. -/
  | unit
  deriving DecidableEq

/-- The panics of the source. -/
inductive Panic
  /-- "cannot recursively lock Mutex" -/
  | recursive
  /-- The `unwrap` of `self.inner.unlock()` in `lock` and `try_lock`. -/
  | unlockUnwrap
  /-- "Problem unlocking MutexGuard in drop" -/
  | drop
  deriving DecidableEq

/-- Where a thread is. -/
inductive Pc (M C : Type)
  | idle
  /-- `self.inner.lock(Forever)` or `self.inner.lock(NoWait)`. -/
  | inner (c : Call) (m : M)
  /-- `self.locked.swap(true)`. -/
  | swap (c : Call) (m : M)
  /-- The swap returned true: `self.inner.unlock().unwrap()`. -/
  | undo (c : Call) (m : M)
  /-- `MutexGuard::drop`: `locked.store(false)`. -/
  | dropStore (m : M)
  /-- `MutexGuard::drop`: `inner.unlock()`. -/
  | dropUnlock (m : M)
  /-- `Condvar::wait`: `locked.store(false)`. -/
  | waitStore (cv : C) (m : M)
  /-- `Condvar::wait`: `k_condvar_wait` releases one level and blocks. -/
  | waitBlock (cv : C) (m : M)
  /-- `k_condvar_wait`: blocked on `cv`. -/
  | blocked (cv : C) (m : M)
  /-- `k_condvar_wait`: the thread was woken and locks the mutex again. -/
  | reacquire (m : M)
  /-- `Condvar::wait`: `locked.store(true)`. -/
  | waitSet (m : M)
  /-- The call has returned. -/
  | returned (r : Outcome M)
  | panicked (p : Panic)
  deriving DecidableEq

/-- A thread that was blocked is woken. -/
def Pc.wake {M C : Type} : Pc M C → Pc M C
  | .blocked _ m => .reacquire m
  | p => p

/-- The mutexes, the wait queues of the condition variables, and the threads. -/
structure St (Tid M C T : Type) where
  mutex : M → Mutex Tid T
  waiters : C → List Tid
  guards : Tid → M → Nat
  pc : Tid → Pc M C

variable {Tid M C T : Type} [DecidableEq Tid] [DecidableEq M] [DecidableEq C]

namespace St

variable (s : St Tid M C T)

@[simp] def setPc (t : Tid) (p : Pc M C) : St Tid M C T :=
  { s with pc := Function.update s.pc t p }

@[simp] def setMutex (m : M) (x : Mutex Tid T) : St Tid M C T :=
  { s with mutex := Function.update s.mutex m x }

@[simp] def setInner (m : M) (k : Sys.Mutex Tid) : St Tid M C T :=
  s.setMutex m { s.mutex m with inner := k }

@[simp] def setLocked (m : M) (b : Bool) : St Tid M C T :=
  s.setMutex m { s.mutex m with locked := b }

@[simp] def setGuards (t : Tid) (m : M) (n : Nat) : St Tid M C T :=
  { s with guards := Function.update s.guards t (Function.update (s.guards t) m n) }

/-- The call of thread `t` returns a guard of `m`. -/
@[simp] def retGuard (t : Tid) (m : M) : St Tid M C T :=
  (s.setGuards t m (s.guards t m + 1)).setPc t (.returned (.guard m))

/-- A thread that is in no call. -/
def atRest (t : Tid) : Bool :=
  match s.pc t with
  | .idle => true
  | .returned _ => true
  | _ => false

/-- `Mutex::lock` and `Mutex::try_lock`. -/
def call (c : Call) (t : Tid) (m : M) : Option (St Tid M C T) :=
  if s.atRest t then some (s.setPc t (.inner c m)) else none

/-- A thread gives one of its guards away, to `drop` or to `wait`. -/
def give (t : Tid) (m : M) (p : Pc M C) : Option (St Tid M C T) :=
  if s.atRest t ∧ 0 < s.guards t m then
    some ((s.setGuards t m (s.guards t m - 1)).setPc t p)
  else none

/-- `MutexGuard::drop`. -/
def drop (t : Tid) (m : M) : Option (St Tid M C T) :=
  s.give t m (.dropStore m)

/-- `Condvar::wait`. -/
def wait (t : Tid) (cv : C) (m : M) : Option (St Tid M C T) :=
  s.give t m (.waitStore cv m)

/-- `MutexGuard::deref_mut`: a thread writes the data through its guard. -/
def derefMut (t : Tid) (m : M) (d : T) : Option (St Tid M C T) :=
  if s.atRest t ∧ 0 < s.guards t m then some (s.setMutex m { s.mutex m with data := d })
  else none

/-- The kernel takes the threads of `woken` out of the wait queue of `cv`. -/
def wakeAll (cv : C) (woken : List Tid) : St Tid M C T :=
  { s with
    -- A woken thread has to lock the mutex again, and may wait for it.
    waiters := Function.update s.waiters cv ((s.waiters cv).filter (· ∉ woken))
    pc := fun t => if t ∈ woken then (s.pc t).wake else s.pc t }

/-- `Condvar::notify_one`, that is `k_condvar_signal`. It wakes one thread of the wait queue,
`first`, when there is one. Which one is the first is a matter of the priorities. -/
def notifyOne (cv : C) (first : Option Tid) : Option (St Tid M C T) :=
  match first with
  | none => if s.waiters cv = [] then some s else none
  | some t => if t ∈ s.waiters cv then some (s.wakeAll cv [t]) else none

/-- `Condvar::notify_all`, that is `k_condvar_broadcast`. -/
def notifyAll (cv : C) : St Tid M C T :=
  s.wakeAll cv (s.waiters cv)

/-- `k_condvar_wait` of thread `t` ends its wait without a notification. -/
def spurious (cv : C) (t : Tid) : Option (St Tid M C T) :=
  if t ∈ s.waiters cv then some (s.wakeAll cv [t]) else none

/-- The next operation of the call that thread `t` is in. -/
def next (t : Tid) : Option (St Tid M C T) :=
  match s.pc t with
  | .idle => none
  | .inner c m =>
    match (s.mutex m).inner.lock t with
    | some k => some ((s.setInner m k).setPc t (.swap c m))
    | none =>
      match c with
      -- With `Forever` the thread waits, so the `unwrap` of the inner lock sees no error.
      | .lock => none
      | .tryLock => some (s.setPc t (.returned .wouldBlock))
  | .swap c m =>
    -- The swap returns the old flag. A set flag means that the thread has a guard already.
    if (s.mutex m).locked then some ((s.setLocked m true).setPc t (.undo c m))
    else some ((s.setLocked m true).retGuard t m)
  | .undo c m =>
    match (s.mutex m).inner.unlock t with
    | some k =>
      match c with
      | .lock => some ((s.setInner m k).setPc t (.panicked .recursive))
      | .tryLock => some ((s.setInner m k).setPc t (.returned .wouldBlock))
    | none => some (s.setPc t (.panicked .unlockUnwrap))
  | .dropStore m => some ((s.setLocked m false).setPc t (.dropUnlock m))
  | .dropUnlock m =>
    match (s.mutex m).inner.unlock t with
    | some k => some ((s.setInner m k).setPc t (.returned .unit))
    | none => some (s.setPc t (.panicked .drop))
  | .waitStore cv m => some ((s.setLocked m false).setPc t (.waitBlock cv m))
  | .waitBlock cv m =>
    -- `k_condvar_wait` does not look at the result of its unlock.
    let k := ((s.mutex m).inner.unlock t).getD (s.mutex m).inner
    some ({ s.setInner m k with
      waiters := Function.update s.waiters cv (s.waiters cv ++ [t]) }.setPc t (.blocked cv m))
  | .blocked _ _ => none
  | .reacquire m =>
    -- The kernel locks the mutex again before `k_condvar_wait` returns.
    match (s.mutex m).inner.lock t with
    | some k => some ((s.setInner m k).setPc t (.waitSet m))
    | none => none
  | .waitSet m => some ((s.setLocked m true).retGuard t m)
  | .returned _ => none
  | .panicked _ => none

end St

/-- The actions: a thread calls an operation or performs the next step of its call, and
condition variables wake threads. -/
inductive Act (Tid M C T : Type)
  | call (c : Call) (t : Tid) (m : M)
  | drop (t : Tid) (m : M)
  | wait (t : Tid) (cv : C) (m : M)
  | derefMut (t : Tid) (m : M) (d : T)
  | notifyOne (cv : C) (first : Option Tid)
  | notifyAll (cv : C)
  | spurious (cv : C) (t : Tid)
  | next (t : Tid)

/-- The threads of the type `Tid`, on the mutexes of the type `M` over the data `d` and the
condition variables of the type `C`. -/
def threads (Tid C : Type) [DecidableEq Tid] [DecidableEq C] (d : M → T) :
    System (St Tid M C T) (Act Tid M C T) where
  init :=
    { mutex := fun m => .new (d m)
      waiters := fun _ => []
      guards := fun _ _ => 0
      pc := fun _ => .idle }
  step s
    | .call c t m => s.call c t m
    | .drop t m => s.drop t m
    | .wait t cv m => s.wait t cv m
    | .derefMut t m d => s.derefMut t m d
    | .notifyOne cv first => s.notifyOne cv first
    | .notifyAll cv => some (s.notifyAll cv)
    | .spurious cv t => s.spurious cv t
    | .next t => s.next t

end ZephyrRust.Sync
