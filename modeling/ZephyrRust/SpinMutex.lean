import Mathlib.Logic.Function.Basic
import ZephyrRust.Lib.Transition

/-!
# `ZephyrRust.SpinMutex`: a mutex on a spinlock

`zephyr/src/sync/spinmutex.rs`. A `SpinMutex` is a `k_spinlock` and the data. `lock` spins until the
context has the spinlock, and `try_lock` gives up when another one has it. Both return a guard with
the key that the kernel gave out. The guard reads and writes the data, and its drop gives the key
back.

The model is one `SpinMutex` and any number of contexts, threads and interrupts. What a context does
between its lock and the drop of the guard is a `Section`, a program of accesses to the cells of the
data. Each access is a step of its own, as is each call of the kernel.
-/

set_option autoImplicit false

namespace ZephyrRust.SpinMutex

open ZephyrRust.Lib (System)

/-- `k_spinlock`: the context that has it, with the key of that lock. A key is the state of the
interrupts before. -/
structure KSpinlock (Ctx Key : Type) where
  holder : Option (Ctx × Key)
  deriving DecidableEq

namespace KSpinlock

variable {Ctx Key : Type} [DecidableEq Ctx] [DecidableEq Key]

/-- The spinlock of `SpinMutex::new`, `core::mem::zeroed()`. -/
def zeroed : KSpinlock Ctx Key where
  holder := none

omit [DecidableEq Ctx] [DecidableEq Key] in
/-- `k_spin_lock` and `k_spin_trylock`, which give out `key`. `none` is a spinlock that is held. -/
def lock (k : KSpinlock Ctx Key) (i : Ctx) (key : Key) : Option (KSpinlock Ctx Key) :=
  match k.holder with
  | none => some ⟨some (i, key)⟩
  | some _ => none

/-- `k_spin_unlock`. `none` is the failed assertion on a spinlock that the context does not hold, or
with another key. -/
def unlock (k : KSpinlock Ctx Key) (i : Ctx) (key : Key) : Option (KSpinlock Ctx Key) :=
  if k.holder = some (i, key) then some zeroed else none

end KSpinlock

/-- `SpinTryLockError`. -/
inductive SpinTryLockError
  | wouldBlock
  deriving DecidableEq

/-- `SpinMutexGuard`. -/
structure SpinMutexGuard (Key : Type) where
  key : Key
  deriving DecidableEq

/-- What a context does with its guard, and what it has at the end. -/
inductive Section (Cell V R : Type)
  | done (r : R)
  /-- `SpinMutexGuard::deref`, and a read of `c`. -/
  | deref (c : Cell) (k : V → Section Cell V R)
  /-- `SpinMutexGuard::deref_mut`, and a write to `c`. -/
  | derefMut (c : Cell) (v : V) (k : Section Cell V R)

/-- The two ways to lock. -/
inductive Call
  | lock
  | tryLock
  deriving DecidableEq

/-- Where a context is. -/
inductive Pc (Key Cell V R : Type)
  | idle
  /-- `k_spin_lock` or `k_spin_trylock` is next, and then `body`. -/
  | acquire (c : Call) (body : Section Cell V R)
  /-- The context has a guard, and `rest` is left. -/
  | guarded (guard : SpinMutexGuard Key) (rest : Section Cell V R)
  /-- The guard has been dropped, or there was none. -/
  | returned (r : Except SpinTryLockError R)
  /-- The assertion of `k_spin_unlock` has failed. -/
  | fault

/-- `SpinMutex`, and the contexts. -/
structure St (Ctx Key Cell V R : Type) where
  inner : KSpinlock Ctx Key
  data : Cell → V
  pc : Ctx → Pc Key Cell V R

variable {Ctx Key Cell V R : Type} [DecidableEq Ctx] [DecidableEq Key] [DecidableEq Cell]

namespace St

variable (s : St Ctx Key Cell V R)

def setPc (i : Ctx) (p : Pc Key Cell V R) : St Ctx Key Cell V R :=
  { s with pc := Function.update s.pc i p }

omit [DecidableEq Ctx] [DecidableEq Key] [DecidableEq Cell] in
/-- A context that is in no call. -/
def atRest (i : Ctx) : Bool :=
  match s.pc i with
  | .idle => true
  | .returned _ => true
  | _ => false

/-- `SpinMutex::lock` and `SpinMutex::try_lock`. -/
def call (c : Call) (i : Ctx) (body : Section Cell V R) : Option (St Ctx Key Cell V R) :=
  if s.atRest i then some (s.setPc i (.acquire c body)) else none

/-- The next operation of context `i`. A lock that succeeds gives out `key`. -/
def next (i : Ctx) (key : Key) : Option (St Ctx Key Cell V R) :=
  match s.pc i with
  | .idle => none
  | .acquire c body =>
    match s.inner.lock i key with
    | some k => some ({ s with inner := k }.setPc i (.guarded ⟨key⟩ body))
    | none =>
      match c with
      | .lock => none
      | .tryLock => some (s.setPc i (.returned (.error .wouldBlock)))
  | .guarded guard (.deref c k) => some (s.setPc i (.guarded guard (k (s.data c))))
  | .guarded guard (.derefMut c v k) =>
    some ({ s with data := Function.update s.data c v }.setPc i (.guarded guard k))
  | .guarded guard (.done r) =>
    -- `SpinMutexGuard::drop`.
    match s.inner.unlock i guard.key with
    | some k => some ({ s with inner := k }.setPc i (.returned (.ok r)))
    | none => some (s.setPc i .fault)
  | .returned _ => none
  | .fault => none

end St

/-- The actions. -/
inductive Act (Ctx Key Cell V R : Type)
  | call (c : Call) (i : Ctx) (body : Section Cell V R)
  | next (i : Ctx) (key : Key)

/-- The contexts of the type `Ctx` on `SpinMutex::new(data)`. -/
def spinMutex (Ctx Key R : Type) [DecidableEq Ctx] [DecidableEq Key] (data : Cell → V) :
    System (St Ctx Key Cell V R) (Act Ctx Key Cell V R) where
  init :=
    { inner := .zeroed
      data := data
      pc := fun _ => .idle }
  step s
    | .call c i body => s.call c i body
    | .next i key => s.next i key

end ZephyrRust.SpinMutex
