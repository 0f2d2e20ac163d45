import Mathlib.Logic.Function.Basic
import ZephyrRust.Error
import ZephyrRust.Lib.Transition

/-!
# `ZephyrRust.I2cTarget`: the registration of an I2C target

`zephyr/src/device/i2c/target.rs`. A static `I2cTargetData` holds the configuration and the callback
table that the kernel reads while the target is registered with a bus. The flag `registered` keeps
everybody else out: `register` claims it before it writes, and `unregister` clears it after the
kernel has let go of the configuration.

The model is one `I2cTargetData`, any number of threads in `register` and `unregister`, and the
handles that the program has. Every operation on the flag, the writes of the table and of the
configuration, and the calls of the kernel are operations of their own. A kernel call returns any
code, and when the code is an error it has had no effect.
-/

set_option autoImplicit false

namespace ZephyrRust.I2cTarget

open ZephyrRust.Lib (System)

/-- The C callbacks of `I2cTargetData`. -/
inductive Trampoline
  | writeRequested
  | readRequested
  | writeReceived
  | readProcessed
  | stop
  deriving DecidableEq

/-- `i2c_target_callbacks`. -/
structure Callbacks where
  writeRequested : Option Trampoline
  readRequested : Option Trampoline
  writeReceived : Option Trampoline
  readProcessed : Option Trampoline
  stop : Option Trampoline
  deriving DecidableEq

/-- The table of `I2cTargetData::new`, `core::mem::zeroed()`. -/
def Callbacks.zeroed : Callbacks where
  writeRequested := none
  readRequested := none
  writeReceived := none
  readProcessed := none
  stop := none

/-- The table that `register` writes. -/
def Callbacks.trampolines : Callbacks where
  writeRequested := some .writeRequested
  readRequested := some .readRequested
  writeReceived := some .writeReceived
  readProcessed := some .readProcessed
  stop := some .stop

/-- `i2c_target_config`. -/
structure Config where
  address : UInt16
  /-- `callbacks` is set. It points to the table then. -/
  callbacks : Bool
  deriving DecidableEq

/-- `raw::EBUSY`. -/
def ebusy : Error := ⟨16⟩

/-- Where a thread is in `register` and `unregister`. -/
inductive Pc (Bus : Type)
  | idle
  /-- `self.registered.swap(true, Ordering::AcqRel)` is next. -/
  | swap (bus : Bus)
  /-- The flag was clear: the writes to `cbs` are next. -/
  | writeCbs (bus : Bus)
  /-- The write to `config` is next. -/
  | writeConfig (bus : Bus)
  /-- `i2c_target_register` is next. -/
  | kernelRegister (bus : Bus)
  /-- It has failed: `self.registered.store(false, Ordering::Release)` is next. -/
  | failed (e : Error)
  /-- It has succeeded: `Ok(I2cTarget { .. })` is next. -/
  | succeeded (bus : Bus)
  /-- In `unregister`, with the handle: `i2c_target_unregister` is next. -/
  | kernelUnregister (bus : Bus)
  /-- It has succeeded: `registered.store(false, Ordering::Release)` is next. -/
  | clear (bus : Bus)
  /-- The last call has returned. -/
  | returned (result : Except Error Unit)

/-- The thread is in no call. -/
def Pc.atRest {Bus : Type} : Pc Bus → Bool
  | .idle | .returned _ => true
  | _ => false

/-- A target, the kernel and the threads. -/
structure St (Tid Bus : Type) where
  registered : Bool
  cbs : Callbacks
  config : Config
  /-- The buses that the kernel has the configuration registered with. -/
  buses : List Bus
  /-- The handles of the program, by their bus. A handle in `unregister` is with the call. -/
  handles : List Bus
  pc : Tid → Pc Bus

variable {Tid Bus : Type} [DecidableEq Tid] [DecidableEq Bus]

namespace St

variable (s : St Tid Bus)

@[simp] def setPc (t : Tid) (pc : Pc Bus) : St Tid Bus :=
  { s with pc := Function.update s.pc t pc }

/-- A call of `I2cTargetData::register`. -/
def register (t : Tid) (bus : Bus) : Option (St Tid Bus) :=
  if (s.pc t).atRest then some (s.setPc t (.swap bus)) else none

/-- A call of `I2cTarget::unregister`. The handle is moved into the call. -/
def unregister (t : Tid) (bus : Bus) : Option (St Tid Bus) :=
  if (s.pc t).atRest ∧ bus ∈ s.handles then
    some ({ s with handles := s.handles.erase bus }.setPc t (.kernelUnregister bus))
  else none

/-- The drop of a handle. It has no effect on the registration. -/
def dropHandle (bus : Bus) : Option (St Tid Bus) :=
  if bus ∈ s.handles then some { s with handles := s.handles.erase bus } else none

/-- The next operation of a thread. `code` is the result of a kernel call. -/
def next (t : Tid) (code : Int32) : Option (St Tid Bus) :=
  match s.pc t with
  | .swap bus =>
    let s' := { s with registered := true }
    if s.registered then some (s'.setPc t (.returned (.error ebusy)))
    else some (s'.setPc t (.writeCbs bus))
  | .writeCbs bus => some ({ s with cbs := .trampolines }.setPc t (.writeConfig bus))
  | .writeConfig bus =>
    some ({ s with config := { s.config with callbacks := true } }.setPc t (.kernelRegister bus))
  | .kernelRegister bus =>
    match Error.toResultVoid code with
    | .error e => some (s.setPc t (.failed e))
    | .ok () => some ({ s with buses := bus :: s.buses }.setPc t (.succeeded bus))
  | .failed e => some ({ s with registered := false }.setPc t (.returned (.error e)))
  | .succeeded bus => some ({ s with handles := bus :: s.handles }.setPc t (.returned (.ok ())))
  | .kernelUnregister bus =>
    match Error.toResultVoid code with
    | .error e => some (s.setPc t (.returned (.error e)))
    | .ok () => some ({ s with buses := s.buses.erase bus }.setPc t (.clear bus))
  | .clear _ => some ({ s with registered := false }.setPc t (.returned (.ok ())))
  | .idle | .returned _ => none

end St

/-- The actions of the program. -/
inductive Act (Tid Bus : Type)
  | register (t : Tid) (bus : Bus)
  | unregister (t : Tid) (bus : Bus)
  | dropHandle (bus : Bus)
  | next (t : Tid) (code : Int32)

/-- `I2cTargetData::new`. -/
def target (Tid Bus : Type) [DecidableEq Tid] [DecidableEq Bus] (address : UInt16) :
    System (St Tid Bus) (Act Tid Bus) where
  init :=
    { registered := false
      cbs := .zeroed
      config := { address := address, callbacks := false }
      buses := []
      handles := []
      pc := fun _ => .idle }
  step s
    | .register t bus => s.register t bus
    | .unregister t bus => s.unregister t bus
    | .dropHandle bus => s.dropHandle bus
    | .next t code => s.next t code

end ZephyrRust.I2cTarget
