import Mathlib.Logic.Function.Basic
import ZephyrRust.Lib.Transition
import ZephyrRust.Sys.Semaphore

/-!
# `ZephyrRust.Executor`: the embassy executor

`zephyr/src/embassy/executor.rs`. The executor thread runs `init`, and then it takes the
semaphore `poll_needed` and polls, in a loop. A poll takes the whole run queue at once and runs
its tasks. Whoever puts a task into an empty run queue calls `__pender`, which gives the
semaphore.

The run queue itself is in the embassy crate. The model has its contract: an enqueue is one
atomic step that says whether the queue was empty, and `poll` empties the queue in one atomic
step before it runs the first task.

The model is one executor thread and any number of other parties that enqueue. These are threads
and interrupt handlers, and they run at any point. The executor thread itself enqueues in `init`
and from a task that it runs. Between the enqueue and the give of one party, all others can move.
-/

set_option autoImplicit false

namespace ZephyrRust.Executor

open ZephyrRust.Lib (System)
open ZephyrRust.Sys (Semaphore)

/-- Those who enqueue: the executor thread, and the other threads and interrupt handlers. -/
inductive Party (Tid : Type)
  | executor
  | other (t : Tid)
  deriving DecidableEq

/-- Where the executor thread is in `Executor::run`. -/
inductive Pc (Task : Type)
  /-- `init(inner.spawner())`. -/
  | init
  /-- `self.poll_needed.take(Forever)` is next. -/
  | take
  /-- It waits in `k_sem_take`. -/
  | blocked
  /-- The take has returned: `inner.poll()` is next. -/
  | poll
  /-- In `inner.poll()`, with the tasks that it still has to run. The first one is running. -/
  | run (tasks : List Task)
  deriving DecidableEq

/-- Where a party is in an enqueue. -/
inductive Enqueue
  | idle
  /-- The task is in the queue, which was empty before: `__pender` is next. -/
  | pender
  deriving DecidableEq

/-- The executor and the parties that enqueue. -/
structure St (Tid Task : Type) where
  pollNeeded : Semaphore (Party Tid)
  runQueue : List Task
  pc : Pc Task
  enq : Party Tid → Enqueue

variable {Tid Task : Type} [DecidableEq Tid]

namespace St

variable (s : St Tid Task)

@[simp] def setEnq (p : Party Tid) (e : Enqueue) : St Tid Task :=
  { s with enq := Function.update s.enq p e }

/-- The party can enqueue: it is in no enqueue, and the executor thread is in code that can
spawn or wake. -/
def canEnqueue (p : Party Tid) : Bool :=
  decide (s.enq p = .idle) &&
    match p with
    | .other _ => true
    | .executor =>
      match s.pc with
      | .init => true
      | .run (_ :: _) => true
      | _ => false

/-- The enqueue of embassy's run queue. Only a party that finds the queue empty goes on to
`__pender`. -/
def enqueue (p : Party Tid) (task : Task) : Option (St Tid Task) :=
  if s.canEnqueue p then
    let s' := { s with runQueue := s.runQueue ++ [task] }
    if s.runQueue.isEmpty then some (s'.setEnq p .pender) else some s'
  else none

/-- The take of a woken party returns. -/
def wake : Option (Party Tid) → St Tid Task
  | some .executor => { s with pc := .poll }
  | _ => s

/-- `__pender`: `(*this).poll_needed.give()`. -/
def pender (p : Party Tid) : Option (St Tid Task) :=
  match s.enq p with
  | .idle => none
  | .pender =>
    let r := s.pollNeeded.give
    some (({ s with pollNeeded := r.2 }.setEnq p .idle).wake r.1)

/-- The next operation of `Executor::run`. -/
def next : Option (St Tid Task) :=
  -- A call of `__pender` on the executor thread returns before its code goes on.
  if s.enq .executor = .pender then none
  else
    match s.pc with
    | .init => some { s with pc := .take }
    | .take =>
      let r := s.pollNeeded.take .executor
      some { s with pollNeeded := r.2, pc := if r.1 then .poll else .blocked }
    | .blocked => none
    | .poll => some { s with runQueue := [], pc := .run s.runQueue }
    | .run [] => some { s with pc := .take }
    | .run (_ :: tasks) => some { s with pc := .run tasks }

end St

/-- The actions of the executor thread and of those who enqueue. -/
inductive Act (Tid Task : Type)
  | enqueue (p : Party Tid) (task : Task)
  | pender (p : Party Tid)
  | next

/-- `Executor::new`: the semaphore `Semaphore::new(0, 1)`. -/
def pollNeeded (Tid : Type) : Semaphore (Party Tid) := (Semaphore.new 0 1).get rfl

/-- An executor whose `run` is called. -/
def executor (Tid Task : Type) [DecidableEq Tid] : System (St Tid Task) (Act Tid Task) where
  init :=
    { pollNeeded := pollNeeded Tid
      runQueue := []
      pc := .init
      enq := fun _ => .idle }
  step s
    | .enqueue p task => s.enqueue p task
    | .pender p => s.pender p
    | .next => s.next

end ZephyrRust.Executor
