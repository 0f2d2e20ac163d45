import Mathlib.Logic.Function.Basic
import ZephyrRust.Lib.Transition

/-!
# `ZephyrRust.Object`: kernel objects that are initialized on first use

`ZephyrObject` in `zephyr/src/object.rs`. The word `state` next to the kernel object is 0 until the
object is initialized, and then it is the address that the object had at that time. `get` compares
it with the address now: it initializes the object on the first use, and it panics when the object
was moved after that.

The model is one object and any number of threads in `get`. Each load, the entry into the critical
section, the start and the end of `init`, and the store are operations of their own. The object can
be moved while no thread has a reference to it, that is, while no thread is in `get` or uses the
pointer that it got. The lists `started` and `completed` are the addresses at which `init` has been
called and has returned. No operation reads them.
-/

set_option autoImplicit false

namespace ZephyrRust.Object

open ZephyrRust.Lib (System)

/-- The address of an object. It is never null. -/
@[ext]
structure Addr where
  toNat : Nat
  ne_zero : toNat ≠ 0
  deriving DecidableEq

/-- Where a thread is in `get`. After the first line, `addr` is the address that it has read. -/
inductive Pc
  | idle
  /-- `self.state.load(Ordering::Relaxed)` is next. -/
  | load (addr : Addr)
  /-- The state was 0: `critical_section::with` is next. -/
  | enter (addr : Addr)
  /-- In the critical section: `self.state.load(Ordering::Acquire)` is next. -/
  | reload (addr : Addr)
  /-- The state is still 0: the call of `init` is next. -/
  | init (addr : Addr)
  /-- In `init`. -/
  | inInit (addr : Addr)
  /-- `self.state.store(addr as usize, Ordering::Release)` is next. -/
  | store (addr : Addr)
  /-- The closure has returned: the critical section ends next. -/
  | leave (addr : Addr)
  /-- `get` has returned the address, and the caller uses it. -/
  | returned (addr : Addr)
  /-- "Object moved after init" -/
  | panicked
  deriving DecidableEq

/-- An object and the threads that use it. -/
structure St (Tid : Type) where
  /-- Where the object is. -/
  addr : Addr
  state : Nat
  /-- The thread in the critical section. -/
  critical : Option Tid
  /-- The threads with a reference to the object. -/
  users : List Tid
  pc : Tid → Pc
  started : List Addr
  completed : List Addr

variable {Tid : Type} [DecidableEq Tid]

namespace St

variable (s : St Tid)

@[simp] def setPc (t : Tid) (pc : Pc) : St Tid := { s with pc := Function.update s.pc t pc }

/-- A call of `get`. The first line reads the address. -/
def call (t : Tid) : Option (St Tid) :=
  match s.pc t with
  | .idle => some ({ s with users := t :: s.users }.setPc t (.load s.addr))
  | _ => none

/-- The end of the use of a pointer from `get`. -/
def release (t : Tid) : Option (St Tid) :=
  match s.pc t with
  | .returned _ => some ({ s with users := s.users.filter (· ≠ t) }.setPc t .idle)
  | _ => none

/-- A panic ends the thread, and with it its use of the object. -/
def panic (t : Tid) : St Tid := { s with users := s.users.filter (· ≠ t) }.setPc t .panicked

/-- The next operation of a thread in `get`. -/
def next (t : Tid) : Option (St Tid) :=
  match s.pc t with
  | .load addr =>
    if s.state = 0 then
      -- Uninitialized. Falls through to the slower init case.
      some (s.setPc t (.enter addr))
    else if s.state = addr.toNat then
      -- Initialized, and object has not been moved.
      some (s.setPc t (.returned addr))
    else some (s.panic t)
  | .enter addr =>
    match s.critical with
    | none => some ({ s with critical := some t }.setPc t (.reload addr))
    | some _ => none
  | .reload addr =>
    if s.state = addr.toNat then
      -- An initialization got in before the critical section.
      some (s.setPc t (.leave addr))
    else if s.state ≠ 0 then some (s.panic t)
    else some (s.setPc t (.init addr))
  | .init addr => some ({ s with started := s.started ++ [addr] }.setPc t (.inInit addr))
  | .inInit addr => some ({ s with completed := s.completed ++ [addr] }.setPc t (.store addr))
  | .store addr => some ({ s with state := addr.toNat }.setPc t (.leave addr))
  | .leave addr => some ({ s with critical := none }.setPc t (.returned addr))
  | .idle | .returned _ | .panicked => none

/-- A move, while no reference to the object is in use. -/
def move (addr : Addr) : Option (St Tid) :=
  match s.users with
  | [] => some { s with addr := addr }
  | _ :: _ => none

end St

/-- The actions of the threads, and the moves. -/
inductive Act (Tid : Type)
  | call (t : Tid)
  | next (t : Tid)
  | release (t : Tid)
  | move (addr : Addr)

/-- `ZephyrObject::new_raw`, at an address. -/
def object (Tid : Type) [DecidableEq Tid] (addr : Addr) : System (St Tid) (Act Tid) where
  init :=
    { addr := addr
      state := 0
      critical := none
      users := []
      pc := fun _ => .idle
      started := []
      completed := [] }
  step s
    | .call t => s.call t
    | .next t => s.next t
    | .release t => s.release t
    | .move addr => s.move addr

end ZephyrRust.Object
