import Mathlib.Data.Int.Order.Basic

/-!
# `ZephyrRust.Error`: the result codes of kernel calls

`zephyr/src/error.rs`. A kernel call returns a `c_int`, whose negative values are errors.
-/

set_option autoImplicit false

namespace ZephyrRust

/-- `Error`: the errno of a failed call. -/
structure Error where
  errno : UInt32
  deriving DecidableEq

/-- `to_result`. -/
def Error.toResult (code : Int32) : Except Error Int32 :=
  if code < 0 then .error ⟨(-code).toUInt32⟩ else .ok code

/-- `to_result_void`. -/
def Error.toResultVoid (code : Int32) : Except Error Unit := (Error.toResult code).map fun _ => ()

end ZephyrRust
