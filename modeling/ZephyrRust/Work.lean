import Mathlib.Logic.Function.Basic
import ZephyrRust.Error
import ZephyrRust.Lib.Transition

/-!
# `ZephyrRust.Work`: the references of a work item

`zephyr/src/work.rs`, the `Work` type. A work item is in an `Arc`. A submit takes one of the
program's references, leaks it with `Arc::into_raw`, and gives the item to the kernel. The
handler that the kernel calls later makes an `Arc` of the pointer with `Arc::from_raw`, runs the
action, and drops that `Arc` at its end.

The model is one work item, any number of threads that submit it, and any number of work queues
that run it. A thread can submit from inside the action as well. The kernel answers
a submit with any code of its contract: a negative code when it does not take the item, 0 when
the item is already queued, and 1 or 2 when it queues the item.

`leaks` and `reclaims` record the history. No step reads them.
-/

set_option autoImplicit false

namespace ZephyrRust.Work

open ZephyrRust.Lib (System)

/-- `SubmitResult`. -/
inductive SubmitResult
  | alreadySubmitted
  | enqueued
  | wasRunning
  deriving DecidableEq

/-- `SubmitResult::to_result`. `none` is the panic "Unexpected result {} from Zephyr work
submission". -/
def SubmitResult.toResult (value : Int32) : Option (Except Error SubmitResult) :=
  match Error.toResult value with
  | .error e => some (.error e)
  | .ok code =>
    if code = 0 then some (.ok .alreadySubmitted)
    else if code = 1 then some (.ok .enqueued)
    else if code = 2 then some (.ok .wasRunning)
    else none

/-- Where a thread is. -/
inductive Pc (Q : Type)
  | idle
  /-- `submit` and `submit_to_queue`: the reference is leaked, `k_work_submit_to_queue` with the
  queue `q` is next. -/
  | kWorkSubmit (q : Q)
  /-- The call has returned. -/
  | returned (r : Except Error SubmitResult)
  /-- The panic of `to_result`. -/
  | panicked

/-- Where the thread of a work queue is in `Work::handler`. -/
inductive Handler
  | idle
  /-- The kernel has called the handler: `Self::from_raw(work)` is next. -/
  | fromRaw
  /-- `action.act()`, then the drop of `this`. -/
  | act
  deriving DecidableEq

/-- A work item, the threads that submit it and the work queues. -/
structure St (Tid Q : Type) where
  /-- The strong count of the `Arc`. -/
  strong : Nat
  /-- The references in the hands of the program. -/
  arcs : Nat
  /-- The queue that the `k_work` is in. -/
  queued : Option Q
  handler : Q → Handler
  pc : Tid → Pc Q
  /-- The calls of `Arc::into_raw` so far. -/
  leaks : Nat
  /-- The calls of `Arc::from_raw` so far. -/
  reclaims : Nat

variable {Tid Q : Type} [DecidableEq Tid] [DecidableEq Q]

namespace St

variable (s : St Tid Q)

@[simp] def setPc (t : Tid) (p : Pc Q) : St Tid Q :=
  { s with pc := Function.update s.pc t p }

@[simp] def setHandler (q : Q) (p : Handler) : St Tid Q :=
  { s with handler := Function.update s.handler q p }

/-- A thread that is in no call. -/
def atRest (t : Tid) : Bool :=
  match s.pc t with
  | .idle => true
  | .returned _ => true
  | _ => false

/-- The program clones one of its references. -/
def clone : Option (St Tid Q) :=
  if 0 < s.arcs then some { s with strong := s.strong + 1, arcs := s.arcs + 1 } else none

/-- `PinWeak::upgrade`: the program makes a reference of a weak one. -/
def upgrade : Option (St Tid Q) :=
  if 0 < s.strong then some { s with strong := s.strong + 1, arcs := s.arcs + 1 } else none

/-- The program drops one of its references. -/
def drop : Option (St Tid Q) :=
  if 0 < s.arcs then some { s with strong := s.strong - 1, arcs := s.arcs - 1 } else none

/-- `Work::submit_to_queue`, up to and with `Arc::into_raw`. -/
def submitToQueue (t : Tid) (q : Q) : Option (St Tid Q) :=
  if s.atRest t ∧ 0 < s.arcs then
    some ({ s with arcs := s.arcs - 1, leaks := s.leaks + 1 }.setPc t (.kWorkSubmit q))
  else none

/-- `Work::submit`: the same with the system work queue. -/
def submit (sysWorkQ : Q) (t : Tid) : Option (St Tid Q) :=
  s.submitToQueue t sysWorkQ

/-- The contract of `k_work_submit_to_queue` on the queue `q`: the queue that the item is in when
the kernel has answered with `rc`. It is `none` for a code that the kernel does not answer here.
A running item goes to a queue that runs it, `running`. -/
def kWorkSubmitToQueue (q : Q) (rc : Int32) (running : Q) : Option (Option Q) :=
  -- Nothing is queued on an error, nor when the item is queued already.
  if rc < 0 then some s.queued
  else if rc = 0 then if s.queued ≠ none then some s.queued else none
  else if rc = 1 then if s.queued = none then some (some q) else none
  else if rc = 2 then
    if s.queued = none ∧ s.handler running ≠ .idle then some (some running) else none
  else none

/-- `submit` and `submit_to_queue`: the kernel call, and `SubmitResult::to_result` of its
answer. -/
def submitAnswer (t : Tid) (rc : Int32) (running : Q) : Option (St Tid Q) :=
  match s.pc t with
  | .kWorkSubmit q =>
    (s.kWorkSubmitToQueue q rc running).map fun queued =>
      -- The reference stays leaked for every code.
      match SubmitResult.toResult rc with
      | some r => { s with queued := queued }.setPc t (.returned r)
      | none => { s with queued := queued }.setPc t .panicked
  | _ => none

/-- The thread of the queue `q` takes the item out of the queue and calls the handler. -/
def run (q : Q) : Option (St Tid Q) :=
  if s.queued = some q ∧ s.handler q = .idle then
    some ({ s with queued := none }.setHandler q .fromRaw)
  else none

/-- The next operation of `Work::handler` on the queue `q`. The drop of `this` is its last
one. -/
def handlerNext (q : Q) : Option (St Tid Q) :=
  match s.handler q with
  | .idle => none
  | .fromRaw => some ({ s with reclaims := s.reclaims + 1 }.setHandler q .act)
  -- `act` borrows `this`. Its own submits are steps of threads.
  | .act => some ({ s with strong := s.strong - 1 }.setHandler q .idle)

end St

/-- The actions of the program, of the kernel and of the handlers. -/
inductive Act (Tid Q : Type)
  | clone
  | upgrade
  | drop
  | submit (t : Tid)
  | submitToQueue (t : Tid) (q : Q)
  | submitAnswer (t : Tid) (rc : Int32) (running : Q)
  | run (q : Q)
  | handlerNext (q : Q)

/-- A work item from `Work::new`, with one reference in the hands of the program. -/
def work (Tid : Type) [DecidableEq Tid] (sysWorkQ : Q) : System (St Tid Q) (Act Tid Q) where
  init :=
    { strong := 1
      arcs := 1
      queued := none
      handler := fun _ => .idle
      pc := fun _ => .idle
      leaks := 0
      reclaims := 0 }
  step s
    | .clone => s.clone
    | .upgrade => s.upgrade
    | .drop => s.drop
    | .submit t => s.submit sysWorkQ t
    | .submitToQueue t q => s.submitToQueue t q
    | .submitAnswer t rc running => s.submitAnswer t rc running
    | .run q => s.run q
    | .handlerNext q => s.handlerNext q

end ZephyrRust.Work
