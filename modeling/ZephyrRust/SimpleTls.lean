import Mathlib.Data.Nat.Basic
import Mathlib.Logic.Function.Basic
import ZephyrRust.Lib.SortedMap
import ZephyrRust.Lib.Transition

/-!
# `ZephyrRust.SimpleTls`: the map of the threads, and the current work queue

`zephyr/src/simpletls.rs`, and its one use in `zephyr/src/work.rs`. A `SimpleTls` is a vector of
pairs of a thread address and a value. `insert` and `get` search it with `binary_search_by`, which
is the parameter `search`.

`WORK_QUEUES` is a `SimpleTls` in a `sync::Mutex`. `WorkQueueBuilder::start` enters the new queue
under the address of its thread, and `get_current_workq` looks the running thread up. Each of the
two is one step here, because the lock is held around it. The thread of a queue is a field of
its `k_work_q`, so its address is the one of the queue plus an offset. A queue is never freed: its
`Drop` panics.
-/

set_option autoImplicit false

namespace ZephyrRust

open ZephyrRust.Lib (Search System beside)

/-- `SimpleTls<T>`. -/
structure SimpleTls (T : Type) where
  map : List (Nat × T)

namespace SimpleTls

variable {T : Type} (search : Search (Nat × T))

/-- `SimpleTls::new`. -/
def new : SimpleTls T where
  map := []

/-- `SimpleTls::insert`. `none` is the panic of an index out of bounds. -/
def insert (tls : SimpleTls T) (thread : Nat) (data : T) : Option (SimpleTls T) :=
  match search.run tls.map (beside thread) with
  | .ok pos => if pos < tls.map.length then some ⟨tls.map.set pos (thread, data)⟩ else none
  | .error pos =>
    if pos ≤ tls.map.length then some ⟨tls.map.insertIdx pos (thread, data)⟩ else none

/-- `SimpleTls::get`, where `thread` is what `k_current_get` returns. The outer `none` is the
panic of an index out of bounds. -/
def get (tls : SimpleTls T) (thread : Nat) : Option (Option T) :=
  match search.run tls.map (beside thread) with
  | .ok pos => tls.map[pos]?.map fun entry => some entry.2
  | .error _ => some none

/-- The calls of `insert` one after another. -/
def insertAll (tls : SimpleTls T) : List (Nat × T) → Option (SimpleTls T)
  | [] => some tls
  | (thread, data) :: calls => (insert search tls thread data).bind fun tls => insertAll tls calls

end SimpleTls

namespace WorkQueue

/-- `WorkQueueRef`, the address of a `k_work_q`. -/
structure WorkQueueRef where
  ptr : Nat
  deriving DecidableEq

/-- The address of `thread` in a `k_work_q`, where `offset` is the offset of this field. -/
def thread (offset : Nat) (item : WorkQueueRef) : Nat := item.ptr + offset

/-- Where a thread of the program is in `WorkQueueBuilder::start`. -/
inductive Pc
  | idle
  /-- `item` is allocated and initialized: the insert into `WORK_QUEUES` is next. -/
  | insert (item : WorkQueueRef)
  /-- `k_work_queue_start` is next. -/
  | kWorkQueueStart (item : WorkQueueRef)
  /-- An index out of bounds inside `SimpleTls`. -/
  | panicked
  deriving DecidableEq

/-- `WORK_QUEUES`, the threads that start queues, and the queues that the kernel runs. -/
structure St (Tid : Type) where
  workQueues : SimpleTls WorkQueueRef
  pc : Tid → Pc
  /-- The queues that were entered into `WORK_QUEUES`, the last one first. No step reads it. -/
  registered : List WorkQueueRef
  /-- The queues whose threads run. -/
  running : List WorkQueueRef

inductive Action (Tid : Type)
  /-- A call of `start`, for which the allocator gives the memory at `item`. -/
  | start (t : Tid) (item : WorkQueueRef)
  /-- The next step of the call. -/
  | next (t : Tid)

variable {Tid : Type} [DecidableEq Tid] (search : Search (Nat × WorkQueueRef)) (offset : Nat)

/-- `get_current_workq`, called in the thread `current`. -/
def getCurrentWorkq (s : St Tid) (current : Nat) : Option (Option WorkQueueRef) :=
  SimpleTls.get search s.workQueues current

def step (s : St Tid) : Action Tid → Option (St Tid)
  | .start t item =>
    match s.pc t with
    | .idle => some { s with pc := Function.update s.pc t (.insert item) }
    | _ => none
  | .next t =>
    match s.pc t with
    | .insert item =>
      match SimpleTls.insert search s.workQueues (thread offset item) item with
      | none => some { s with pc := Function.update s.pc t .panicked }
      | some tls =>
        some { s with
          workQueues := tls
          registered := item :: s.registered
          pc := Function.update s.pc t (.kWorkQueueStart item) }
    | .kWorkQueueStart item =>
      some { s with
        running := item :: s.running
        pc := Function.update s.pc t .idle }
    | .idle | .panicked => none

/-- The program starts without a work queue. -/
def system : System (St Tid) (Action Tid) where
  init := { workQueues := SimpleTls.new, pc := fun _ => .idle, registered := [], running := [] }
  step := step search offset

end WorkQueue

end ZephyrRust
