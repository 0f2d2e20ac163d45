import Mathlib.Logic.Function.Basic
import ZephyrRust.Lib.Transition

/-!
# `ZephyrRust.Thread`: the thread pools

`zephyr/src/thread.rs`, and the code that the thread macro generates for a thread function
(`zephyr-macros/src/task.rs`, `run`). The macro declares a pool of `ThreadData` and a stack for
each of its entries. A call of the function is a call of `ThreadData::acquire` with the arguments.
`find_thread` reserves an entry in a critical section. After that, and outside of it, `acquire`
puts the arguments into the cell of the entry and creates the kernel thread. `ReadyThread::start`
wakes the thread, and the generated `startup` takes the arguments out of the cell.

The model is one pool of `n` entries and any number of calls, which a type `C` names. The
argument of a call `c` is `args c`. A pointer to a part of an entry is the index of the entry: the
`thread` that `k_thread_create` fills and that the handles keep, the stack `stacks[id]`, and the
cell that `startup` gets as `arg0`. A critical section is one step, and every other operation on
shared data is a step of its own.

`owner` and `taken` record the history. No step reads them.
-/

set_option autoImplicit false

namespace ZephyrRust.Thread

open ZephyrRust.Lib (System)

/-- `ThreadState`. -/
inductive ThreadState
  /-- A thread that is free. -/
  | init
  /-- There is a handle for this thread, but it has not been started. -/
  | allocated
  /-- A thread that is running, as far as we know. -/
  | running
  deriving DecidableEq

/-- What a kernel thread does. -/
inductive Status (T : Type)
  /-- Created with `K_FOREVER`: it waits for `k_wakeup`. -/
  | sleeping
  /-- In `startup`: `init.replace(None)` is next. -/
  | startup
  /-- In the thread function of the user, which `startup` has called with `data`. -/
  | body (data : T)
  /-- The panic "Incorrect thread initialization". -/
  | panicked
  | dead
  deriving DecidableEq

/-- A `k_thread` that was created. -/
structure KThread (C T : Type) (n : Nat) where
  /-- The call of `acquire` that created it. -/
  owner : C
  stack : Fin n
  /-- The argument of `startup`: the cell with the arguments. -/
  arg0 : Fin n
  status : Status T

/-- `ThreadData`. The `thread` is `none` while it is zeroed memory. -/
structure ThreadData (C T : Type) (n : Nat) where
  init : Option T
  state : ThreadState
  thread : Option (KThread C T n)

variable {C T : Type} {n : Nat}

namespace ThreadData

/-- `ThreadData::new`. -/
def new : ThreadData C T n where
  init := none
  state := .init
  thread := none

/-- The thread has terminated. -/
def dead (d : ThreadData C T n) : Bool :=
  match d.thread with
  | some { status := .dead, .. } => true
  | _ => false

/-- `find_thread`, the match on the state of one entry: whether it reserves the entry.
`k_thread_join` with `K_NO_WAIT` returns 0 when the thread has terminated. -/
def available (d : ThreadData C T n) : Bool :=
  match d.state with
  | .init => true
  -- Allocated threads have not started, so they are not available.
  | .allocated => false
  | .running => d.dead

end ThreadData

/-- Where a call of `acquire` is, and then its handle. -/
inductive Pc (n : Nat)
  | idle
  /-- `Self::find_thread(pool)` is next. -/
  | findThread
  /-- `*init = Some(args)` is next. -/
  | fill (id : Fin n)
  /-- `k_thread_create` is next. -/
  | create (id : Fin n)
  /-- `k_thread_name_set` is next. -/
  | nameSet (tid : Fin n)
  /-- The call has returned a `ReadyThread`. -/
  | ready (tid : Fin n)
  /-- `start` has made a `RunningThread` of it. -/
  | started (tid : Fin n)
  /-- The panic "Attempt to use more threads than declared pool size". -/
  | panicked
  deriving DecidableEq

/-- The pool and the calls. -/
structure St (C T : Type) (n : Nat) where
  pool : Fin n → ThreadData C T n
  pc : C → Pc n
  /-- What the `startup` of the thread of a call has taken out of its cell. -/
  taken : C → List T

namespace St

variable [DecidableEq C] (s : St C T n)

@[simp] def setPc (c : C) (p : Pc n) : St C T n :=
  { s with pc := Function.update s.pc c p }

@[simp] def setEntry (id : Fin n) (d : ThreadData C T n) : St C T n :=
  { s with pool := Function.update s.pool id d }

@[simp] def setStatus (id : Fin n) (k : KThread C T n) (status : Status T) : St C T n :=
  s.setEntry id { s.pool id with thread := some { k with status := status } }

omit [DecidableEq C] in
/-- `ThreadData::find_thread`, the scan: the first entry that is available. -/
def findThread : Option (Fin n) :=
  (List.finRange n).find? fun id => (s.pool id).available

/-- A call of the thread function. -/
def acquire (c : C) : Option (St C T n) :=
  match s.pc c with
  | .idle => some (s.setPc c .findThread)
  | _ => none

/-- The next operation of `ThreadData::acquire`. -/
def next (args : C → T) (c : C) : Option (St C T n) :=
  match s.pc c with
  | .findThread =>
    match s.findThread with
    | some id =>
      some ((s.setEntry id { s.pool id with state := .allocated }).setPc c (.fill id))
    | none => some (s.setPc c .panicked)
  | .fill id =>
    some ((s.setEntry id { s.pool id with init := some (args c) }).setPc c (.create id))
  | .create id =>
    let k : KThread C T n := { owner := c, stack := id, arg0 := id, status := .sleeping }
    some ((s.setEntry id { s.pool id with thread := some k }).setPc c (.nameSet id))
  | .nameSet tid => some (s.setPc c (.ready tid))
  | _ => none

/-- `ReadyThread::start`, that is `k_wakeup`. It consumes the handle, and it sees the `k_thread`
only. -/
def start (c : C) : Option (St C T n) :=
  match s.pc c with
  | .ready tid =>
    match (s.pool tid).thread with
    | some { status := .sleeping, owner, stack, arg0 } =>
      let k : KThread C T n := { owner, stack, arg0, status := .startup }
      some ((s.setEntry tid { s.pool tid with thread := some k }).setPc c (.started tid))
    -- A thread that does not sleep is left as it is.
    | _ => some (s.setPc c (.started tid))
  | _ => none

/-- The kernel thread `tid` runs: `startup` takes the arguments, and then the thread function
returns at some point. -/
def run (tid : Fin n) : Option (St C T n) :=
  match (s.pool tid).thread with
  | none => none
  | some k =>
    match k.status with
    | .startup =>
      let cell := (s.pool k.arg0).init
      -- `init.replace(None)`.
      let s' := s.setEntry k.arg0 { s.pool k.arg0 with init := none }
      match cell with
      | none => some (s'.setStatus tid k .panicked)
      | some data =>
        some { s'.setStatus tid k (.body data) with
          taken := Function.update s.taken k.owner (s.taken k.owner ++ [data]) }
    | .body _ => some (s.setStatus tid k .dead)
    | _ => none

omit [DecidableEq C] in
/-- `RunningThread::join`: it returns when the thread has terminated. -/
def join (c : C) : Option (St C T n) :=
  match s.pc c with
  | .started tid => if (s.pool tid).dead then some s else none
  | _ => none

end St

/-- The actions of the calls, of the handles and of the kernel threads. -/
inductive Act (C : Type) (n : Nat)
  | acquire (c : C)
  | next (c : C)
  | start (c : C)
  | run (tid : Fin n)
  | join (c : C)

/-- A pool as the thread macro declares it. -/
def pool (n : Nat) [DecidableEq C] (args : C → T) : System (St C T n) (Act C n) where
  init :=
    { pool := fun _ => ThreadData.new
      pc := fun _ => .idle
      taken := fun _ => [] }
  step s
    | .acquire c => s.acquire c
    | .next c => s.next args c
    | .start c => s.start c
    | .run tid => s.run tid
    | .join c => s.join c

end ZephyrRust.Thread
