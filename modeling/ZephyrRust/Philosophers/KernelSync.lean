import ZephyrRust.Philosophers
import ZephyrRust.Sys.Mutex
import ZephyrRust.Sys.Semaphore

/-!
# `ZephyrRust.Philosophers.KernelSync`: a kernel object for each fork

The `ForkSync` implementations of `samples/philosophers/src` whose methods are one kernel call.
`SysMutexSync` (`sysmutex.rs`) has a `sys::Mutex` for each fork, and `SemSync` (`semsync.rs` and
`dynsemsync.rs`) has a `sys::Semaphore`. The two versions of `SemSync` differ in where the
semaphores are allocated.
-/

set_option autoImplicit false

namespace ZephyrRust.Philosophers

/-- Where the call of a philosopher is. -/
inductive KernelPc
  | atRest
  /-- Before the kernel call of `take`. A mutex is waited for here. -/
  | take (index : Fork)
  /-- `k_sem_take`: the philosopher is in the wait queue. -/
  | waiting (index : Fork)
  /-- Before the kernel call of `release`. -/
  | release (index : Fork)
  /-- The panic of an `unwrap`. -/
  | panicked
  deriving DecidableEq

/-- The kernel call that a method makes. -/
def KernelPc.enter : ForkOp → KernelPc
  | .take index => .take index
  | .release index => .release index

/-! ## `SysMutexSync` -/

/-- `SysMutexSync`, and the calls of its methods. -/
structure SysMutexSync where
  locks : Fork → Sys.Mutex Phil
  pc : Phil → KernelPc

namespace SysMutexSync

/-- The kernel call of philosopher `n` returns with the mutex `k` at `index`. -/
def ret (x : SysMutexSync) (n : Phil) (index : Fork) (k : Sys.Mutex Phil) : SysMutexSync where
  locks := Function.update x.locks index k
  pc := Function.update x.pc n .atRest

/-- The kernel call of philosopher `n`. With `Forever` the lock waits, so its `unwrap` sees no
error. -/
def step (x : SysMutexSync) (n : Phil) : Option SysMutexSync :=
  match x.pc n with
  | .take index => ((x.locks index).lock n).map (x.ret n index)
  | .release index =>
    match (x.locks index).unlock n with
    | some k => some (x.ret n index k)
    | none => some { x with pc := Function.update x.pc n .panicked }
  | _ => none

end SysMutexSync

/-- `SysMutexSync::new`, and its methods. -/
def sysMutexSync : ForkSync SysMutexSync Phil where
  init :=
    { locks := fun _ => .new
      pc := fun _ => .atRest }
  call x n op := { x with pc := Function.update x.pc n (.enter op) }
  step := SysMutexSync.step
  atRest x n := decide (x.pc n = .atRest)

/-! ## `SemSync` -/

/-- `SemSync`, and the calls of its methods. -/
structure SemSync where
  forks : Fork → Sys.Semaphore Phil
  pc : Phil → KernelPc

namespace SemSync

/-- `Semaphore::new(1, 1)`. -/
def sem : Sys.Semaphore Phil := (Sys.Semaphore.new 1 1).get rfl

/-- The kernel call of philosopher `n` leaves the semaphore `k` at `index`, and takes `n` to
`p`. -/
def put (x : SemSync) (n : Phil) (index : Fork) (k : Sys.Semaphore Phil) (p : KernelPc) :
    SemSync where
  forks := Function.update x.forks index k
  pc := Function.update x.pc n p

/-- The kernel call of philosopher `n`. A `give` ends the wait of the philosopher that it hands
the semaphore to. The `unwrap` of a `take` with `Forever` sees no error. -/
def step (x : SemSync) (n : Phil) : Option SemSync :=
  match x.pc n with
  | .take index =>
    let r := (x.forks index).take n
    some (x.put n index r.2 (if r.1 then .atRest else .waiting index))
  | .release index =>
    let r := (x.forks index).give
    let x := x.put n index r.2 .atRest
    match r.1 with
    | some m => some { x with pc := Function.update x.pc m .atRest }
    | none => some x
  | _ => none

end SemSync

/-- `semaphore_sync` and `dyn_semaphore_sync`. -/
def semSync : ForkSync SemSync Phil where
  init :=
    { forks := fun _ => SemSync.sem
      pc := fun _ => .atRest }
  call x n op := { x with pc := Function.update x.pc n (.enter op) }
  step := SemSync.step
  atRest x n := decide (x.pc n = .atRest)

end ZephyrRust.Philosophers
