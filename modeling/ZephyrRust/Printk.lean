import Mathlib.Data.List.Basic

/-!
# `ZephyrRust.Printk`: printing to the console

`zephyr/src/printk.rs`. The text of a call is collected in a small buffer. When the buffer has no
room for the character that starts with the next byte, it is handed to the kernel with
`k_str_out`. The arguments of a call are the strings that the formatter writes, in order.
-/

set_option autoImplicit false

namespace ZephyrRust.Printk

/-- The index into `buf` is out of range. -/
inductive Panic
  | index
  deriving DecidableEq

/-- `BUF_SIZE`. -/
def bufSize : Nat := 32

/-- `Context`. -/
structure Context where
  /-- How many characters are used in the buffer. -/
  count : Nat
  /-- Bytes written. -/
  buf : Vector UInt8 bufSize

/-- A call of `k_str_out`, with the buffer at that time. -/
structure StrOut where
  buf : Vector UInt8 bufSize
  count : Nat

/-- The bytes that a call prints. -/
def StrOut.bytes (call : StrOut) : List UInt8 := call.buf.toList.take call.count

/-- `utf8_byte_length`. -/
def utf8ByteLength (byte : UInt8) : Nat :=
  if byte &&& 0b10000000 = 0 then
    -- Single byte (0xxxxxxx)
    1
  else if byte &&& 0b11100000 = 0b11000000 then
    -- Two-byte sequence (110xxxxx)
    2
  else if byte &&& 0b11110000 = 0b11100000 then
    -- Three-byte sequence (1110xxxx)
    3
  else if byte &&& 0b11111000 = 0b11110000 then
    -- Four-byte sequence (11110xxx)
    4
  else
    -- Continuation byte or invalid (10xxxxxx)
    1

/-- The context of a call, and what it has printed. -/
structure St where
  context : Context
  out : List StrOut

namespace St

/-- The context at the start of `printk`. -/
def new : St where
  context := { count := 0, buf := Vector.replicate bufSize 0 }
  out := []

/-- `Context::flush`. -/
def flush (s : St) : St :=
  if 0 < s.context.count then
    { context := { s.context with count := 0 }
      out := s.out ++ [{ buf := s.context.buf, count := s.context.count }] }
  else s

/-- `self.buf[self.count] = b; self.count += 1`. -/
def push (s : St) (b : UInt8) : Except Panic St :=
  if h : s.context.count < bufSize then
    .ok { s with
      context := { count := s.context.count + 1, buf := s.context.buf.set s.context.count b h } }
  else .error .index

/-- `Context::add_byte`. -/
def addByte (s : St) (b : UInt8) : Except Panic St :=
  -- Ensure we have room for an entire UTF-8 sequence.
  if bufSize < s.context.count + utf8ByteLength b then s.flush.push b else s.push b

/-- `Context::write_str`. -/
def writeStr (s : St) (text : String) : Except Panic St :=
  text.toUTF8.data.toList.foldlM addByte s

end St

/-- `printk`. -/
def printk (args : List String) : Except Panic (List StrOut) := do
  let s ← args.foldlM St.writeStr St.new
  return s.flush.out

/-- `printkln`. -/
def printkln (args : List String) : Except Panic (List StrOut) := do
  let s ← args.foldlM St.writeStr St.new
  let s ← s.addByte '\n'.toUInt8
  return s.flush.out

end ZephyrRust.Printk
