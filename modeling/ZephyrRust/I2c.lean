import ZephyrRust.Error

/-!
# `ZephyrRust.I2c`: the transactions of an I2C controller

`zephyr/src/device/i2c/controller.rs`. `transfer` makes one kernel message of each operation, in an
array of `maxTransferOps` messages, and passes the array to `i2c_transfer`. A message with RESTART
begins a new phase on the bus, and a message without it continues the phase of the message before.

The kernel's `i2c_transfer` on the device is a parameter, a function of the messages, their number,
the address and the state of everything else. The bits of the flags come from the kernel's header.
They are parameters too, with the facts that the header documents. `none` is a panic.
-/

set_option autoImplicit false

namespace ZephyrRust.I2c

/-- A slice of bytes: its address and its length. -/
structure Slice where
  ptr : Nat
  len : Nat
  deriving DecidableEq

/-- `Operation`. -/
inductive Operation
  | write (buf : Slice)
  | read (buf : Slice)
  deriving DecidableEq

/-- `raw::ZR_I2C_MSG_WRITE`, `raw::ZR_I2C_MSG_READ` and `raw::ZR_I2C_MSG_RESTART`. Read and restart
are different bits, and write has neither. -/
structure MsgFlags where
  write : UInt8
  read : UInt8
  restart : UInt8
  read_ne : read ≠ 0
  restart_ne : restart ≠ 0
  write_read : write &&& read = 0
  write_restart : write &&& restart = 0
  read_restart : read &&& restart = 0

/-- The bits of the header: `BIT(0)` for read and `BIT(2)` for restart. -/
instance : Inhabited MsgFlags where
  default :=
    { write := 0
      read := 1
      restart := 4
      read_ne := by decide
      restart_ne := by decide
      write_read := by decide
      write_restart := by decide
      read_restart := by decide }

/-- `raw::i2c_msg`. The defaults are those of `Default::default()`. -/
structure Msg where
  buf : Nat := 0
  len : UInt32 := 0
  flags : UInt8 := 0
  deriving DecidableEq

/-- `I2c::MAX_TRANSFER_OPS`. -/
def maxTransferOps : Nat := 8

/-- The array `msgs`. -/
abbrev Msgs : Type := Vector Msg maxTransferOps

/-- `raw::E2BIG`. -/
def e2big : Error := ⟨7⟩

/-- `i2c_transfer(device, msgs, num_msgs, addr)`: its code and its effect. -/
abbrev Kernel (σ : Type) : Type := Msgs → UInt8 → UInt16 → σ → Int32 × σ

/-- The slice of an operation. -/
def Operation.buf : Operation → Slice
  | .write buf | .read buf => buf

/-- The flags that the `match` of the loop gives. -/
def Operation.flags (F : MsgFlags) : Operation → UInt8
  | .write _ => F.write
  | .read _ => F.read

/-- One round of the loop of `transfer`. -/
def fillMsg (F : MsgFlags) (msgs : Msgs) (i : Nat) (op : Operation) : Option Msgs := do
  let mut flags := op.flags F
  if i > 0 then
    let previous ← msgs[i - 1]?
    if previous.flags &&& F.read ≠ flags &&& F.read then
      flags := flags ||| F.restart
  if h : i < maxTransferOps then
    return msgs.set i { buf := op.buf.ptr, len := UInt32.ofNat op.buf.len, flags := flags } h
  else
    none

/-- The loop of `transfer`. -/
def fill (F : MsgFlags) (msgs : Msgs) (ops : List (Operation × Nat)) : Option Msgs :=
  ops.foldlM (fun msgs op => fillMsg F msgs op.2 op.1) msgs

/-- `I2c::transfer`. -/
def transfer {σ : Type} (F : MsgFlags) (i2cTransfer : Kernel σ) (addr : UInt16)
    (ops : List Operation) (s : σ) : Option (Except Error Unit × σ) := do
  if ops.length > maxTransferOps then
    return (.error e2big, s)
  let msgs ← fill F (Vector.replicate maxTransferOps {}) ops.zipIdx
  let (code, s') := i2cTransfer msgs (UInt8.ofNat ops.length) addr s
  return (Error.toResultVoid code, s')

end ZephyrRust.I2c
