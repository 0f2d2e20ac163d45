import Mathlib.Logic.Function.Basic
import ZephyrRust.Lib.Transition
import ZephyrRust.Sys.Queue
import ZephyrRust.WaitQueue

/-!
# `ZephyrRust.Blocking`: the pool of worker threads for blocking calls

`zephyr/src/blocking.rs`. `run(op)` makes a `BlockingFuture`. Its first poll claims a slot
of `SLOT_POOL`, wires the slot up, and sends it to `QUEUE`. A worker thread dequeues the
slot, takes the closure out of the future's `Shared`, runs it with no lock held, writes the
result back and stores `Done`. A later poll takes the result and releases the slot. A drop
of the future at any point in between cancels the operation.

The model is a step function. Every step is one atomic operation of the source: a
`compare_exchange`, a load or store of a slot's state, an access to one cell, the
acquisition or the release of a spin lock, one call on `QUEUE`, on an `AtomicWaker` or on
the waiter registration. A program counter names the operation that a party performs next.
The constructors of the program counters are grouped by the function that they belong to:
`SlotPool::claim` (`ClaimPc`), `SlotPool::release` (`ReleasePc`), the rest of the first poll
(`SubmitPc`), `cancel` (`CancelPc`), and the two critical sections of `run_op` (`TakePc`
and `FinishPc`).

Futures, workers, wakers and closure types are named by the types of a `Config`. The
closure of a future is named by the future. A pointer to the `Shared` of a future is the
name of that future, and `St.deref` fails on a null pointer, on a pointer to a future whose
memory is gone, and on a pointer whose target has a type other than the one of the
`run_op::<F, R>` that reads it. A worker that dereferences such a pointer is at `fault`.

`obs`, `execs` and `writes` record the history. No step reads them.
-/

set_option autoImplicit false

namespace ZephyrRust.Blocking

open ZephyrRust.Lib (System)
open ZephyrRust.Sys (Queue)

/-- What the pool is built for: the two Kconfig numbers, the names of the futures, of the
values that closures return, of the wakers and of the closure types (`F` together with
`R`), and the waker containers. -/
structure Config where
  /-- `CONFIG_RUST_BLOCKING_POOL_SLOTS`. -/
  slots : Nat
  /-- `CONFIG_RUST_BLOCKING_POOL_THREADS`. -/
  threads : Nat
  Fut : Type
  Val : Type
  Waker : Type
  Ty : Type
  decFut : DecidableEq Fut
  decWaker : DecidableEq Waker
  decTy : DecidableEq Ty
  /-- The closure type of a future. -/
  ty : Fut → Ty
  atomicWaker : AtomicWaker Waker
  multiWaker : MultiWakerRegistration Waker

attribute [instance] Config.decFut Config.decWaker Config.decTy

/-- `SlotState`. -/
inductive SlotState
  | free
  | claimed
  | queued
  | done
  | orphaned
  deriving DecidableEq, Repr

variable (c : Config)

/-- The parties that take a spin lock: a future, in its poll or its drop, and a worker. -/
inductive Party
  | fut (f : c.Fut)
  | wrk (k : Fin c.threads)

/-- `Slot`. The link field belongs to the kernel and is left out. -/
structure Slot where
  lock : Option (Party c)
  state : SlotState
  /-- `none` is the null pointer. -/
  shared : Option c.Fut
  /-- `run_op::<F, R>` is named by the closure type. -/
  runner : Option c.Ty
  waker : c.atomicWaker.Cell

/-- `SlotPool::claim`. -/
inductive ClaimPc
  /-- `self.waiters.lock()`. -/
  | lock
  /-- The `compare_exchange` on slot `i`, the next one of the `find`. -/
  | scan (i : Nat)
  /-- `waiters.register(waker)`. -/
  | register
  /-- The guard of `waiters` drops, and `claim` returns `r`. -/
  | unlock (r : Option (Fin c.slots))

/-- `SlotPool::release`. -/
inductive ReleasePc
  /-- `slot.state.store(Free)`. -/
  | store (i : Fin c.slots)
  /-- `self.waiters.lock()`. -/
  | lock
  /-- `waiters.wake()`. -/
  | wake
  /-- The guard of `waiters` drops. -/
  | unlock

/-- The first poll of a future, after `claim` returned a slot. -/
inductive SubmitPc
  /-- `this.slot = Some(slot)`. -/
  | setSlot
  /-- `slot.waker.register(cx.waker())`. -/
  | register
  /-- `*slot.shared.get() = &this.shared`. -/
  | setShared
  /-- `*slot.runner.get() = Some(run_op::<F, R>)`. -/
  | setRunner
  /-- `start_workers_once`: the `compare_exchange` on `STARTED`. -/
  | startOnce
  /-- `start_workers_once`: the loop starts worker `k` next. -/
  | startWorker (k : Nat)
  /-- `slot.state.store(Queued)`. -/
  | storeQueued
  /-- `QUEUE.send(slot)`. -/
  | send

/-- `cancel`, in the drop of a future that has a slot. -/
inductive CancelPc
  /-- `QUEUE.remove(slot)`. -/
  | remove
  /-- `slot.lock.lock()`. -/
  | lock
  /-- `slot.state.load() == Done`. -/
  | load
  /-- `*slot.shared.get() = null_mut()`. -/
  | clear
  /-- `slot.state.store(Orphaned)`. -/
  | store
  /-- The guard of the slot's lock drops. -/
  | unlock (orphaned : Bool)

/-- Where a `BlockingFuture` is. `poll` and `drop` have exclusive access to the future, so
one program counter serves both. -/
inductive FutPc
  /-- Between polls. -/
  | idle
  /-- In `claim`, with the waker of this poll. -/
  | claim (w : c.Waker) (p : ClaimPc c)
  /-- In the rest of the first poll, with the claimed slot. -/
  | submit (w : c.Waker) (i : Fin c.slots) (p : SubmitPc)
  /-- A later poll: `slot.waker.register(cx.waker())`. -/
  | register (w : c.Waker) (i : Fin c.slots)
  /-- A later poll: `slot.state.load() == Done`. -/
  | load (i : Fin c.slots)
  /-- A later poll: `this.shared.result.take().expect(..)`. -/
  | takeResult (i : Fin c.slots)
  /-- A later poll: `this.slot = None`, with the result in hand. -/
  | clearSlot (i : Fin c.slots) (v : c.Val)
  /-- A later poll in `release`, before it returns `Ready(v)`. -/
  | ready (v : c.Val) (p : ReleasePc c)
  /-- The drop in `cancel`. -/
  | cancel (i : Fin c.slots) (p : CancelPc)
  /-- The drop in one of the two `release` calls of `cancel`: the one after a successful
  `QUEUE.remove` (`removed`), or the one after `Done`. -/
  | discard (removed : Bool) (p : ReleasePc c)
  /-- The future's memory is gone. -/
  | dropped
  /-- "Blocking slot reported Done without a result". -/
  | panicked

/-- `BlockingFuture`, with the fields of its `Shared`. `ready` is the value that a poll
returned. -/
structure Future where
  pc : FutPc c
  slot : Option (Fin c.slots)
  op : Option c.Fut
  result : Option c.Val
  ready : Option c.Val

/-- `run_op`, the first critical section. -/
inductive TakePc
  /-- `slot.lock.lock()`. -/
  | lock
  /-- `slot.state.load() == Orphaned`. -/
  | load
  /-- The read of `slot.shared`. -/
  | shared
  /-- `(*shared.op.get()).take()` through the pointer. -/
  | op (ptr : Option c.Fut)
  /-- The guard drops. `op` is the closure that was taken. -/
  | unlock (op : Option c.Fut)

/-- `run_op`, the second critical section. -/
inductive FinishPc
  /-- `slot.lock.lock()`. -/
  | lock
  /-- `slot.state.load() == Orphaned`. -/
  | load
  /-- The read of `slot.shared`. -/
  | shared
  /-- `*shared.result.get() = result.take()` through the pointer. -/
  | result (ptr : Option c.Fut)
  /-- `slot.state.store(Done)`. -/
  | store
  /-- The guard drops. -/
  | unlock (orphaned : Bool)

/-- Where a worker thread is. In `run_op` it carries the closure type, the slot, the closure
once it has taken it, and the result once it has run it. -/
inductive WrkPc
  /-- Not started. -/
  | off
  /-- `QUEUE.recv(Forever)`. -/
  | recv
  /-- The read of `slot.runner`. -/
  | runner (i : Fin c.slots)
  | take (t : c.Ty) (i : Fin c.slots) (p : TakePc c)
  /-- `op()`. -/
  | exec (t : c.Ty) (i : Fin c.slots) (op : c.Fut)
  | finish (t : c.Ty) (i : Fin c.slots) (op : c.Fut) (v : c.Val) (p : FinishPc c)
  /-- `slot.waker.wake()`, after the operation of `op` was stored as `Done`. -/
  | wake (i : Fin c.slots) (op : c.Fut)
  | release (p : ReleasePc c)
  /-- "Queued blocking slot with no runner". -/
  | panicked
  /-- A dereference of a pointer that does not address the `Shared` it should. -/
  | fault

/-- The wake-ups of a future's task. `waiting`: the last `claim` returned `None`. `waker`: the
waker that the last `claim` or the last poll registered. `woken`: that waker was woken since
then. -/
structure Obs where
  waiting : Bool
  waker : Option c.Waker
  woken : Bool

/-- The state of the pool, of its futures and of its workers. -/
structure St where
  slots : Fin c.slots → Slot c
  waitersLock : Option (Party c)
  waiters : c.multiWaker.Reg
  /-- `QUEUE`. -/
  queue : Queue (Fin c.slots)
  /-- `STARTED`. -/
  started : Bool
  fut : c.Fut → Future c
  wrk : Fin c.threads → WrkPc c
  obs : c.Fut → Obs c
  /-- The closures that were executed, with their values, in order. -/
  execs : List (c.Fut × c.Val)
  /-- The writes to a `Shared.result`: the future it belongs to, the closure and its value. -/
  writes : List (c.Fut × c.Fut × c.Val)

variable {c}

/-- `Slot::new`. -/
def Slot.new : Slot c :=
  { lock := none, state := .free, shared := none, runner := none,
    waker := c.atomicWaker.new }

/-- The future that `run(op)` makes. -/
def Future.new (f : c.Fut) : Future c :=
  { pc := .idle, slot := none, op := some f, result := none, ready := none }

namespace St

variable (s : St c)

/-! The setters unfold under `simp`, so that a field of the state after a step is either the
old field or the update. -/

@[simp] def setFut (f : c.Fut) (F : Future c) : St c :=
  { s with fut := Function.update s.fut f F }

@[simp] def setPc (f : c.Fut) (p : FutPc c) : St c :=
  s.setFut f { s.fut f with pc := p }

@[simp] def setWrk (k : Fin c.threads) (p : WrkPc c) : St c :=
  { s with wrk := Function.update s.wrk k p }

@[simp] def setSlot (i : Fin c.slots) (S : Slot c) : St c :=
  { s with slots := Function.update s.slots i S }

@[simp] def setState (i : Fin c.slots) (x : SlotState) : St c :=
  s.setSlot i { s.slots i with state := x }

@[simp] def setLock (i : Fin c.slots) (p : Option (Party c)) : St c :=
  s.setSlot i { s.slots i with lock := p }

/-- The wakers `ws` are woken. -/
@[simp] def wakeTasks (ws : List c.Waker) : St c :=
  { s with obs := fun f =>
      { s.obs f with woken := (s.obs f).woken || (s.obs f).waker.any (decide <| · ∈ ws) } }

/-- `slot.waker.register(w)` by the owner `f` of slot `i`. -/
@[simp] def registerWaker (f : c.Fut) (i : Fin c.slots) (w : c.Waker) : St c :=
  { s.setSlot i { s.slots i with
      waker := c.atomicWaker.register (s.slots i).waker w } with
    obs := Function.update s.obs f { s.obs f with waker := some w, woken := false } }

/-- The future that a pointer addresses, for a `run_op` of closure type `t`. -/
def deref (t : c.Ty) : Option c.Fut → Option c.Fut
  | none => none
  | some f =>
    match (s.fut f).pc with
    -- The pointer dangles.
    | .dropped => none
    | _ => if c.ty f = t then some f else none

/-- One operation of `SlotPool::claim`, called by `f` with the waker `w`. -/
def claimStep (f : c.Fut) (w : c.Waker) : ClaimPc c → Option (St c)
  | .lock =>
    match s.waitersLock with
    | some _ => none
    | none => some ({ s with waitersLock := some (.fut f) }.setPc f (.claim w (.scan 0)))
  | .scan i =>
    -- The `find` stops at the first `compare_exchange` that succeeds.
    if h : i < c.slots then
      if (s.slots ⟨i, h⟩).state = .free then
        some ((s.setState ⟨i, h⟩ .claimed).setPc f (.claim w (.unlock (some ⟨i, h⟩))))
      else some (s.setPc f (.claim w (.scan (i + 1))))
    else some (s.setPc f (.claim w .register))
  | .register =>
    -- A full registration wakes the tasks that it drops.
    let r := c.multiWaker.register s.waiters w
    some (({ s with waiters := r.1 }.wakeTasks r.2).setPc f (.claim w (.unlock none)))
  | .unlock none =>
    some ({ s with
        waitersLock := none
        obs := Function.update s.obs f { waiting := true, waker := some w, woken := false }
      }.setPc f .idle)
  | .unlock (some i) =>
    some ({ s with
        waitersLock := none
        obs := Function.update s.obs f { s.obs f with waiting := false }
      }.setPc f (.submit w i .setSlot))

/-- One operation of `SlotPool::release`, called by the party `p`: the state after it and
the operation that follows. -/
def releaseStep (p : Party c) : ReleasePc c → Option (St c × Option (ReleasePc c))
  | .store i => some (s.setState i .free, some .lock)
  | .lock =>
    match s.waitersLock with
    | some _ => none
    | none => some ({ s with waitersLock := some p }, some .wake)
  | .wake =>
    let r := c.multiWaker.wake s.waiters
    some ({ s with waiters := r.1 }.wakeTasks r.2, some .unlock)
  | .unlock => some ({ s with waitersLock := none }, none)

/-- The thread of worker `k` starts, unless it already runs. -/
def startWorker (k : Fin c.threads) : St c :=
  match s.wrk k with
  | .off => s.setWrk k .recv
  | _ => s

/-- One operation of the first poll of `f`, after `claim` returned slot `i`. -/
def submitStep (f : c.Fut) (w : c.Waker) (i : Fin c.slots) : SubmitPc → St c
  | .setSlot =>
    s.setFut f { s.fut f with slot := some i, pc := .submit w i .register }
  | .register => (s.registerWaker f i w).setPc f (.submit w i .setShared)
  | .setShared =>
    (s.setSlot i { s.slots i with shared := some f }).setPc f (.submit w i .setRunner)
  | .setRunner =>
    (s.setSlot i { s.slots i with runner := some (c.ty f) }).setPc f (.submit w i .startOnce)
  | .startOnce =>
    -- Only the first poll of all runs the loop. The others do not wait for it.
    if s.started then s.setPc f (.submit w i .storeQueued)
    else { s with started := true }.setPc f (.submit w i (.startWorker 0))
  | .startWorker k =>
    if h : k < c.threads then
      (s.startWorker ⟨k, h⟩).setPc f (.submit w i (.startWorker (k + 1)))
    else s.setPc f (.submit w i .storeQueued)
  | .storeQueued => (s.setState i .queued).setPc f (.submit w i .send)
  | .send => { s with queue := Queue.send s.queue i }.setPc f .idle

/-- One operation of `cancel` on slot `i`, in the drop of `f`. -/
def cancelStep (f : c.Fut) (i : Fin c.slots) : CancelPc → Option (St c)
  | .remove =>
    -- When the slot was still queued, no worker refers to it.
    let r := Queue.remove s.queue i
    if r.1 then some ({ s with queue := r.2 }.setPc f (.discard true (.store i)))
    else some (s.setPc f (.cancel i .lock))
  | .lock =>
    match (s.slots i).lock with
    | some _ => none
    | none => some ((s.setLock i (some (.fut f))).setPc f (.cancel i .load))
  | .load =>
    -- The result is there and is discarded. Otherwise a worker has the slot.
    if (s.slots i).state = .done then some (s.setPc f (.cancel i (.unlock false)))
    else some (s.setPc f (.cancel i .clear))
  | .clear =>
    some ((s.setSlot i { s.slots i with shared := none }).setPc f (.cancel i .store))
  | .store => some ((s.setState i .orphaned).setPc f (.cancel i (.unlock true)))
  -- The worker that has the slot releases it.
  | .unlock true => some ((s.setLock i none).setPc f .dropped)
  | .unlock false => some ((s.setLock i none).setPc f (.discard false (.store i)))

/-- The next operation of the poll or the drop of `f` that is in progress. -/
def futStep (f : c.Fut) : Option (St c) :=
  match (s.fut f).pc with
  | .idle => none
  | .claim w p => s.claimStep f w p
  | .submit w i p => some (s.submitStep f w i p)
  | .register w i => some ((s.registerWaker f i w).setPc f (.load i))
  | .load i =>
    if (s.slots i).state = .done then some (s.setPc f (.takeResult i))
    else some (s.setPc f .idle)
  | .takeResult i =>
    -- The `expect`.
    match (s.fut f).result with
    | some v => some (s.setFut f { s.fut f with result := none, pc := .clearSlot i v })
    | none => some (s.setPc f .panicked)
  | .clearSlot i v =>
    some (s.setFut f { s.fut f with slot := none, pc := .ready v (.store i) })
  | .ready v p =>
    (s.releaseStep (.fut f) p).map fun
      | (s', some p') => s'.setPc f (.ready v p')
      | (s', none) => s'.setFut f { s'.fut f with ready := some v, pc := .idle }
  | .cancel i p => s.cancelStep f i p
  | .discard b p =>
    (s.releaseStep (.fut f) p).map fun
      | (s', some p') => s'.setPc f (.discard b p')
      | (s', none) => s'.setPc f .dropped
  | .dropped => none
  | .panicked => none

/-- One operation of the first critical section of `run_op::<t>` on slot `i`. -/
def takeStep (k : Fin c.threads) (t : c.Ty) (i : Fin c.slots) : TakePc c → Option (St c)
  | .lock =>
    match (s.slots i).lock with
    | some _ => none
    | none => some ((s.setLock i (some (.wrk k))).setWrk k (.take t i .load))
  | .load =>
    -- The future was dropped before its closure was taken.
    if (s.slots i).state = .orphaned then some (s.setWrk k (.take t i (.unlock none)))
    else some (s.setWrk k (.take t i .shared))
  | .shared => some (s.setWrk k (.take t i (.op (s.slots i).shared)))
  | .op ptr =>
    match s.deref t ptr with
    | none => some (s.setWrk k .fault)
    | some g =>
      some ((s.setFut g { s.fut g with op := none }).setWrk k
        (.take t i (.unlock (s.fut g).op)))
  | .unlock none => some ((s.setLock i none).setWrk k (.release (.store i)))
  | .unlock (some op) => some ((s.setLock i none).setWrk k (.exec t i op))

/-- One operation of the second critical section of `run_op::<t>` on slot `i`, with the
value `v` of the closure `op`. -/
def finishStep (k : Fin c.threads) (t : c.Ty) (i : Fin c.slots) (op : c.Fut) (v : c.Val) :
    FinishPc c → Option (St c)
  | .lock =>
    match (s.slots i).lock with
    | some _ => none
    | none => some ((s.setLock i (some (.wrk k))).setWrk k (.finish t i op v .load))
  | .load =>
    -- The future was dropped while its closure ran. The result goes nowhere.
    if (s.slots i).state = .orphaned then
      some (s.setWrk k (.finish t i op v (.unlock true)))
    else some (s.setWrk k (.finish t i op v .shared))
  | .shared => some (s.setWrk k (.finish t i op v (.result (s.slots i).shared)))
  | .result ptr =>
    match s.deref t ptr with
    | none => some (s.setWrk k .fault)
    | some g =>
      some ({ s.setFut g { s.fut g with result := some v } with
          writes := s.writes ++ [(g, op, v)] }.setWrk k (.finish t i op v .store))
  | .store => some ((s.setState i .done).setWrk k (.finish t i op v (.unlock false)))
  | .unlock true => some ((s.setLock i none).setWrk k (.release (.store i)))
  | .unlock false => some ((s.setLock i none).setWrk k (.wake i op))

/-- The next operation of worker `k`. When it runs a closure, the closure returns `v`. -/
def wrkStep (k : Fin c.threads) (v : c.Val) : Option (St c) :=
  match s.wrk k with
  | .off => none
  | .recv =>
    match Queue.recv s.queue with
    | none => none
    | some (i, rest) => some ({ s with queue := rest }.setWrk k (.runner i))
  | .runner i =>
    -- `(*slot.runner.get()).expect(..)`, and the call of the runner it finds.
    match (s.slots i).runner with
    | some t => some (s.setWrk k (.take t i .lock))
    | none => some (s.setWrk k .panicked)
  | .take t i p => s.takeStep k t i p
  | .exec t i op =>
    -- The closure runs with no lock held.
    some ({ s with execs := s.execs ++ [(op, v)] }.setWrk k (.finish t i op v .lock))
  | .finish t i op v p => s.finishStep k t i op v p
  | .wake i _ =>
    let r := c.atomicWaker.wake (s.slots i).waker
    some (((s.setSlot i { s.slots i with waker := r.1 }).wakeTasks r.2.toList).setWrk k .recv)
  | .release p =>
    (s.releaseStep (.wrk k) p).map fun
      | (s', some p') => s'.setWrk k (.release p')
      | (s', none) => s'.setWrk k .recv
  | .panicked => none
  | .fault => none

/-- A poll of `f` with the waker `w` starts. A future is not polled after `Ready`. -/
def poll (f : c.Fut) (w : c.Waker) : Option (St c) :=
  match (s.fut f).pc, (s.fut f).ready, (s.fut f).slot with
  | .idle, none, none => some (s.setPc f (.claim w .lock))
  | .idle, none, some i => some (s.setPc f (.register w i))
  | _, _, _ => none

/-- The drop of `f` starts. -/
def drop (f : c.Fut) : Option (St c) :=
  match (s.fut f).pc, (s.fut f).slot with
  | .idle, none => some (s.setPc f .dropped)
  | .idle, some i => some (s.setPc f (.cancel i .remove))
  | _, _ => none

end St

variable (c)

/-- The actions: the executor polls a future, the program drops it, and a poll, a drop or a
worker performs its next operation. -/
inductive Act
  | poll (f : c.Fut) (w : c.Waker)
  | drop (f : c.Fut)
  | fut (f : c.Fut)
  | wrk (k : Fin c.threads) (v : c.Val)

/-- The start: all slots free, no worker started, and every future as `run` makes it. -/
def init : St c where
  slots _ := Slot.new
  waitersLock := none
  waiters := c.multiWaker.new
  queue := Queue.new
  started := false
  fut := Future.new
  wrk _ := .off
  obs _ := { waiting := false, waker := none, woken := false }
  execs := []
  writes := []

/-- The blocking pool with its futures and workers, all interleaved. -/
def pool : System (St c) (Act c) where
  init := init c
  step s
    | .poll f w => s.poll f w
    | .drop f => s.drop f
    | .fut f => s.futStep f
    | .wrk k v => s.wrkStep k v

/-- A pool with one slot and one worker, for two futures and two wakers. -/
abbrev Config.single : Config where
  slots := 1
  threads := 1
  Fut := Fin 2
  Val := Nat
  Waker := Fin 2
  Ty := Unit
  decFut := inferInstance
  decWaker := inferInstance
  decTy := inferInstance
  ty _ := ()
  atomicWaker := AtomicWaker.cell (Fin 2)
  multiWaker := MultiWakerRegistration.vec (Fin 2) 1

end ZephyrRust.Blocking
