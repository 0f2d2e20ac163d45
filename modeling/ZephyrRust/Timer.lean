import Mathlib.Logic.Function.Basic
import ZephyrRust.Lib.Transition

/-!
# `ZephyrRust.Timer`: timers with callbacks

`zephyr/src/timer.rs`. A `k_timer` is used through three types: a `StoppedTimer`, a `SimpleTimer`
that runs, and a pinned `CallbackTimer` that runs and owns a callback. The kernel timer holds a
pointer to the callback in `user_data`, and `expiry_fn` is the instance of `timer_expiry` for the
type of the callback's data. The two are set and cleared in separate operations, and `user_data` is
not cleared at all.

The model is one `k_timer`, its owner in the program, and the timer interrupt. The pinned boxes are
in a heap whose addresses are used again. Every operation on the kernel timer is a step of its own,
and the interrupt can come between any two of them while the timer runs. `k_timer_stop` returns when
no expiry is being handled. Each callback has a number. The lists `delivered`, `invoked` and
`dropped` are histories, and no operation reads them.
-/

set_option autoImplicit false

namespace ZephyrRust.Timer

open ZephyrRust.Lib (System)

/-- A pinned `Callback<T>`: its number and its type. -/
structure Callback (Ty : Type) where
  id : Nat
  ty : Ty
  deriving DecidableEq

/-- A call of a callback: the instance of `timer_expiry` and what is at the address that it
follows. -/
structure Invocation (Ty : Type) where
  fn : Ty
  callback : Option (Callback Ty)
  deriving DecidableEq

/-- `k_timer`. -/
structure KTimer (Addr Ty : Type) where
  expiryFn : Option Ty
  userData : Option Addr
  running : Bool
  deriving DecidableEq

/-- `k_timer_init(item.get(), None, None)`. -/
def KTimer.init {Addr Ty : Type} : KTimer Addr Ty where
  expiryFn := none
  userData := none
  running := false

/-- What the program has of the timer, and where it is in an operation on it. -/
inductive Owner (Addr Ty : Type)
  /-- No timer, or one that is not initialized. -/
  | gone
  /-- A `StoppedTimer`. -/
  | stopped
  /-- A `SimpleTimer`. -/
  | simple
  /-- In `SimpleTimer::drop`, after `k_timer_stop`: the drop of the item is next. -/
  | dropSimple
  /-- In `CallbackTimer::<T>::new`, with the box: `(*item_ptr).expiry_fn = Some(Self::timer_expiry)`
  is next. -/
  | setExpiry (box : Addr) (ty : Ty)
  /-- `k_timer_user_data_set` is next. -/
  | setUserData (box : Addr)
  /-- `k_timer_start` is next. -/
  | start (box : Addr)
  /-- A `CallbackTimer`. -/
  | callback (box : Addr)
  /-- In `CallbackTimer::drop`, after `k_timer_stop`: `(*raw_item).expiry_fn = None` is next. -/
  | clearExpiry (box : Addr)
  /-- The drop of the item is next. -/
  | dropItem (box : Addr)
  /-- The drop of the callback and of the box is next. -/
  | dropBox (box : Addr)
  deriving DecidableEq

/-- Where the timer interrupt is. -/
inductive Irq (Addr Ty : Type)
  | idle
  /-- In `timer_expiry`: `k_timer_user_data_get` is next. -/
  | getUserData (fn : Ty)
  /-- The data is not null: the call of the callback is next. -/
  | call (fn : Ty) (data : Addr)
  /-- In the callback. -/
  | inCallback (fn : Ty) (data : Addr)
  deriving DecidableEq

/-- A timer, its owner, and the interrupt. -/
structure St (Addr Ty : Type) where
  timer : KTimer Addr Ty
  owner : Owner Addr Ty
  irq : Irq Addr Ty
  /-- The pinned callbacks. -/
  heap : Addr → Option (Callback Ty)
  /-- The number of the next callback. -/
  nextId : Nat
  delivered : List (Invocation Ty)
  invoked : List (Invocation Ty)
  dropped : List Nat

variable {Addr Ty : Type} [DecidableEq Addr]

/-- The box of a `CallbackTimer`. -/
def Owner.box : Owner Addr Ty → Option Addr
  | .setExpiry a _ | .setUserData a | .start a | .callback a | .clearExpiry a | .dropItem a
  | .dropBox a => some a
  | .gone | .stopped | .simple | .dropSimple => none

namespace St

variable (s : St Addr Ty)

/-- `k_timer_stop`. It returns when no expiry is being handled. -/
def kTimerStop (owner : Owner Addr Ty) : Option (St Addr Ty) :=
  match s.irq with
  | .idle => some { s with timer := { s.timer with running := false }, owner := owner }
  | _ => none

/-- `k_timer_start`. -/
def kTimerStart (owner : Owner Addr Ty) : St Addr Ty :=
  { s with timer := { s.timer with running := true }, owner := owner }

/-- `StoppedTimer::new`, or the `init_once` of a static timer. -/
def new : Option (St Addr Ty) :=
  match s.owner with
  | .gone => some { s with timer := .init, owner := .stopped }
  | _ => none

/-- `StoppedTimer::start_simple`. -/
def startSimple : Option (St Addr Ty) :=
  match s.owner with
  | .stopped => some (s.kTimerStart .simple)
  | _ => none

/-- `StoppedTimer::start_callback`: `Box::pin` in `CallbackTimer::new`, at an address that is
free. -/
def startCallback (a : Addr) (ty : Ty) : Option (St Addr Ty) :=
  match s.owner, s.heap a with
  | .stopped, none =>
    some { s with
      owner := .setExpiry a ty
      heap := Function.update s.heap a (some { id := s.nextId, ty := ty })
      nextId := s.nextId + 1 }
  | _, _ => none

/-- `SimpleTimer::restart`. -/
def restart : Option (St Addr Ty) :=
  match s.owner with
  | .simple => some (s.kTimerStart .simple)
  | _ => none

/-- `SimpleTimer::stop`. -/
def stop : Option (St Addr Ty) :=
  match s.owner with
  | .simple => s.kTimerStop .stopped
  | _ => none

/-- The start of a drop, with its first operation. -/
def drop : Option (St Addr Ty) :=
  match s.owner with
  | .stopped => some { s with owner := .gone }
  | .simple => s.kTimerStop .dropSimple
  | .callback a => s.kTimerStop (.clearExpiry a)
  | _ => none

/-- The next operation of `CallbackTimer::new` or of a drop. -/
def next : Option (St Addr Ty) :=
  match s.owner with
  | .setExpiry a ty =>
    some { s with timer := { s.timer with expiryFn := some ty }, owner := .setUserData a }
  | .setUserData a =>
    some { s with timer := { s.timer with userData := some a }, owner := .start a }
  | .start a => some (s.kTimerStart (.callback a))
  | .clearExpiry a =>
    some { s with timer := { s.timer with expiryFn := none }, owner := .dropItem a }
  | .dropItem a => some { s with owner := .dropBox a }
  | .dropBox a =>
    some { s with
      owner := .gone
      heap := Function.update s.heap a none
      dropped := s.dropped ++ ((s.heap a).map Callback.id).toList }
  | .dropSimple => some { s with owner := .gone }
  | .gone | .stopped | .simple | .callback _ => none

/-- An expiry: the kernel calls the expiry function, when there is one. -/
def expire : Option (St Addr Ty) :=
  match s.irq, s.timer.running with
  | .idle, true =>
    match s.timer.expiryFn with
    | some fn =>
      some { s with
        irq := .getUserData fn
        delivered := s.delivered ++ [{ fn := fn, callback := s.owner.box.bind s.heap }] }
    | none => some s
  | _, _ => none

/-- The next operation of `timer_expiry`. -/
def timerExpiry : Option (St Addr Ty) :=
  match s.irq with
  | .getUserData fn =>
    match s.timer.userData with
    | some data => some { s with irq := .call fn data }
    | none => some { s with irq := .idle }
  | .call fn data =>
    some { s with
      irq := .inCallback fn data
      invoked := s.invoked ++ [{ fn := fn, callback := s.heap data }] }
  | .inCallback _ _ => some { s with irq := .idle }
  | .idle => none

end St

/-- The actions of the program and of the interrupt. -/
inductive Act (Addr Ty : Type)
  | new
  | startSimple
  | startCallback (a : Addr) (ty : Ty)
  | restart
  | stop
  | drop
  | next
  | expire
  | timerExpiry

/-- A timer in zeroed memory. -/
def timer (Addr Ty : Type) [DecidableEq Addr] : System (St Addr Ty) (Act Addr Ty) where
  init :=
    { timer := .init
      owner := .gone
      irq := .idle
      heap := fun _ => none
      nextId := 0
      delivered := []
      invoked := []
      dropped := [] }
  step s
    | .new => s.new
    | .startSimple => s.startSimple
    | .startCallback a ty => s.startCallback a ty
    | .restart => s.restart
    | .stop => s.stop
    | .drop => s.drop
    | .next => s.next
    | .expire => s.expire
    | .timerExpiry => s.timerExpiry

end ZephyrRust.Timer
