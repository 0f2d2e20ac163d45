import Mathlib.Logic.Function.Basic
import ZephyrRust.Lib.Bits
import ZephyrRust.Lib.Transition

/-!
# `ZephyrRust.Gpio`: asynchronous waits on gpio pins

`zephyr/src/device/gpio.rs`, the module `async_io`. The waits on all pins of one controller share
a `GpioStatic`: a waker for each pin, the atomic word `fired`, and the kernel's callback structure
with its `pin_mask`. `GpioWait::poll` registers the pin and enables its interrupt. The handler
`callback_handler` disables the interrupt again, takes the pin out of the mask, sets the bit in
`fired` and wakes the task.

The model is one controller with its 32 pins. A `GpioWait` borrows its `GpioPin`, so a pin has at
most one wait at a time. The waits on different pins are polled by different threads. A step is
one access to shared memory or one kernel call. So the update `pin_mask |= 1 << pin` is a read and a
write, and so is `pin_mask &= !(1 << pin)` in the handler. The kernel calls the handler for a set
of pins that are in the mask and whose configured level is present. The interrupt handler of a
controller is not entered a second time before it has returned.

`Wait.event`, `registered` and `wakes` record the history. No step reads them.
-/

set_option autoImplicit false

namespace ZephyrRust.Gpio

open ZephyrRust.Lib (System Bits.bit Bits.test Bits.lowest)

/-- The pins of a controller. -/
abbrev Pin := Fin 32

/-- `gpio_port_pins_t`. -/
abbrev Pins := BitVec 32

/-- The level of a pin, and the level that an interrupt is configured for
(`ZR_GPIO_INT_LEVEL_LOW` and `ZR_GPIO_INT_LEVEL_HIGH`). -/
inductive Level
  | low
  | high
  deriving DecidableEq

/-- Where a `GpioWait` is. -/
inductive Poll
  /-- It was never polled. -/
  | created
  /-- `fast_install` is next. -/
  | fastInstall
  /-- The first `has_fired` is next. -/
  | early
  /-- `register`: `self.wakers[pin].register(waker)` is next. -/
  | wakerRegister
  /-- `register`: the read of `pin_mask |= 1 << pin` is next. -/
  | maskRead
  /-- `register`: the write of `pin_mask |= 1 << pin` is next, after the read of `mask`. -/
  | maskWrite (mask : Pins)
  /-- `gpio_pin_interrupt_configure_dt` is next. -/
  | configure
  /-- The second `has_fired` is next. -/
  | late
  /-- The last poll has returned `Poll::Pending`. -/
  | pending
  /-- A poll has returned `Poll::Ready`. -/
  | ready
  deriving DecidableEq

/-- `GpioWait`. -/
structure Wait (W : Type) where
  level : Level
  poll : Poll
  /-- `cx.waker()` of the last poll. -/
  waker : Option W
  /-- The interrupt of this pin, configured for `level`, has fired since the first poll began. -/
  event : Bool

/-- Where the interrupt handler is in `callback_handler`. The `rest` are the pins of the later
rounds of its loop. -/
inductive Handler
  | idle
  /-- `while pins > 0`. -/
  | loop (pins : Pins)
  /-- `gpio_pin_interrupt_configure` with `ZR_GPIO_INT_MODE_DISABLE_ONLY` is next. -/
  | disable (pin : Pin) (rest : Pins)
  /-- The read of `pin_mask &= !(1 << pin)` is next. -/
  | maskRead (pin : Pin) (rest : Pins)
  /-- The write of `pin_mask &= !(1 << pin)` is next, after the read of `mask`. -/
  | maskWrite (pin : Pin) (rest : Pins) (mask : Pins)
  /-- `fired.fetch_or(1 << pin)` is next. -/
  | fire (pin : Pin) (rest : Pins)
  /-- `wakers[pin].wake()` is next. -/
  | wake (pin : Pin) (rest : Pins)
  deriving DecidableEq

/-- A controller with its `GpioStatic`, and the waits on its pins. -/
structure St (W : Type) where
  installed : Bool
  pinMask : Pins
  fired : Pins
  wakers : Pin → Option W
  /-- The interrupt of a pin: the level that it is configured for, or `none` when it is
  disabled. -/
  interrupt : Pin → Option Level
  /-- The level of a pin. -/
  level : Pin → Level
  wait : Pin → Option (Wait W)
  handler : Handler
  /-- `register` of the pin has completed, and the handler has not handled the pin since. -/
  registered : Pin → Bool
  /-- The calls of `wakers[pin].wake()` so far, the latest first. -/
  wakes : List Pin

variable {W : Type}

/-- The interrupt of the pin, configured as `mode`, fires during a wait. -/
def Wait.fire (w : Wait W) (mode : Option Level) : Wait W :=
  if w.poll ≠ .created ∧ mode = some w.level then { w with event := true } else w

namespace St

variable (s : St W)

@[simp] def setWait (p : Pin) (w : Wait W) : St W :=
  { s with wait := Function.update s.wait p (some w) }

/-- `wait_for_high` and `wait_for_low`: `GpioWait::new`. -/
def new (p : Pin) (level : Level) : Option (St W) :=
  match s.wait p with
  | none => some (s.setWait p { level := level, poll := .created, waker := none, event := false })
  | some _ => none

/-- The task drops a `GpioWait` that it is not polling. There is no `Drop`. -/
def drop (p : Pin) : Option (St W) :=
  match s.wait p with
  | none => none
  | some w =>
    if w.poll = .created ∨ w.poll = .pending ∨ w.poll = .ready then
      some { s with wait := Function.update s.wait p none }
    else none

/-- `GpioWait::poll` begins. -/
def poll (p : Pin) (waker : W) : Option (St W) :=
  match s.wait p with
  | none => none
  | some w =>
    if w.poll = .created ∨ w.poll = .pending then
      some (s.setWait p { w with poll := .fastInstall, waker := some waker })
    else none

/-- `GpioStatic::fast_install` and `install`. `gpio_init_callback` sets the mask to 0. -/
def fastInstall : St W :=
  if s.installed then s else { s with installed := true, pinMask := 0#32 }

/-- `GpioStatic::has_fired`: an atomic `fetch_and`, and the test of the old value. -/
def hasFired (p : Pin) : Bool × St W :=
  (decide (s.fired &&& Bits.bit p ≠ 0#32), { s with fired := s.fired &&& ~~~Bits.bit p })

/-- The `has_fired` of a wait: it returns `Poll::Ready`, or it goes on to `next`. -/
def checkFired (p : Pin) (w : Wait W) (next : Poll) : St W :=
  let r := s.hasFired p
  r.2.setWait p { w with poll := if r.1 then .ready else next }

/-- The next operation of `GpioWait::poll`. -/
def next (p : Pin) : Option (St W) :=
  match s.wait p with
  | none => none
  | some w =>
    match w.poll with
    | .fastInstall => some (s.fastInstall.setWait p { w with poll := .early })
    | .early => some (s.checkFired p w .wakerRegister)
    | .wakerRegister =>
      some ({ s with wakers := Function.update s.wakers p w.waker }.setWait p
        { w with poll := .maskRead })
    | .maskRead => some (s.setWait p { w with poll := .maskWrite s.pinMask })
    | .maskWrite mask =>
      some ({ s with
        pinMask := mask ||| Bits.bit p
        registered := Function.update s.registered p true }.setWait p
          { w with poll := .configure })
    | .configure =>
      some ({ s with interrupt := Function.update s.interrupt p (some w.level) }.setWait p
        { w with poll := .late })
    | .late => some (s.checkFired p w .pending)
    | _ => none

/-- The level of a pin changes. -/
def setLevel (p : Pin) (level : Level) : St W :=
  { s with level := Function.update s.level p level }

/-- The kernel calls `callback_handler` with `pins`. Each of them is in the mask, and its interrupt
is configured for its present level. -/
def fire (pins : Pins) : Option (St W) :=
  if s.handler = .idle ∧ s.installed ∧ pins ≠ 0#32 ∧
      ∀ p, Bits.test pins p → Bits.test s.pinMask p ∧ s.interrupt p = some (s.level p) then
    some { s with
      handler := .loop pins
      wait := fun p =>
        if Bits.test pins p then (s.wait p).map fun w => w.fire (s.interrupt p) else s.wait p }
  else none

/-- The next operation of `callback_handler`. -/
def handlerNext : Option (St W) :=
  match s.handler with
  | .idle => none
  | .loop pins =>
    if h : pins = 0#32 then some { s with handler := .idle }
    else
      let pin := Bits.lowest pins h
      some { s with handler := .disable pin (pins &&& ~~~Bits.bit pin) }
  | .disable pin rest =>
    some { s with
      interrupt := Function.update s.interrupt pin none
      handler := .maskRead pin rest }
  | .maskRead pin rest => some { s with handler := .maskWrite pin rest s.pinMask }
  | .maskWrite pin rest mask =>
    some { s with
      pinMask := mask &&& ~~~Bits.bit pin
      registered := Function.update s.registered pin false
      handler := .fire pin rest }
  | .fire pin rest =>
    some { s with fired := s.fired ||| Bits.bit pin, handler := .wake pin rest }
  | .wake pin rest =>
    some { s with
      wakers := Function.update s.wakers pin none
      wakes := pin :: s.wakes
      handler := .loop rest }

end St

/-- The actions of the tasks, of the pins and of the interrupt handler. -/
inductive Act (W : Type)
  | new (p : Pin) (level : Level)
  | drop (p : Pin)
  | poll (p : Pin) (waker : W)
  | next (p : Pin)
  | setLevel (p : Pin) (level : Level)
  | fire (pins : Pins)
  | handlerNext

/-- A controller with a new `GpioStatic`. All interrupts are disabled. -/
def controller (W : Type) : System (St W) (Act W) where
  init :=
    { installed := false
      pinMask := 0#32
      fired := 0#32
      wakers := fun _ => none
      interrupt := fun _ => none
      level := fun _ => .low
      wait := fun _ => none
      handler := .idle
      registered := fun _ => false
      wakes := [] }
  step s
    | .new p level => s.new p level
    | .drop p => s.drop p
    | .poll p waker => s.poll p waker
    | .next p => s.next p
    | .setLevel p level => some (s.setLevel p level)
    | .fire pins => s.fire pins
    | .handlerNext => s.handlerNext

end ZephyrRust.Gpio
