import Mathlib.Data.List.Basic

/-!
# `ZephyrRust.Sys.Queue`: the `k_queue` wrapper

`zephyr::sys::queue::Queue` wraps a kernel `k_queue`: an intrusive FIFO of pointers. The
kernel runs each operation under its own lock, so one call is one atomic step on the list
of queued items, oldest first. The items here are the names of the objects that the
pointers address.
-/

set_option autoImplicit false

namespace ZephyrRust.Sys

/-- The items of a `k_queue`, oldest first. -/
abbrev Queue (α : Type) := List α

namespace Queue

variable {α : Type}

/-- `Queue::new`: no items. -/
def new : Queue α := []

/-- `Queue::send`, that is `k_queue_append`. -/
def send (q : Queue α) (data : α) : Queue α := q ++ [data]

/-- `Queue::recv`, that is `k_queue_get`, at a moment when it does not wait: the oldest
item and the rest, or `none` for the null pointer of an empty queue. -/
def recv : Queue α → Option (α × Queue α)
  | [] => none
  | data :: rest => some (data, rest)

/-- `Queue::remove`, that is `k_queue_remove`: whether `data` was still queued, and the
queue without it. -/
def remove [DecidableEq α] (q : Queue α) (data : α) : Bool × Queue α :=
  (decide (data ∈ q), q.erase data)

/-- `recv` returns an item exactly when it is the head of the queue. -/
theorem recv_eq_some {q rest : Queue α} {data : α} :
    recv q = some (data, rest) ↔ q = data :: rest := by
  cases q <;> simp [recv]

/-- `recv` returns null exactly on the empty queue. -/
theorem recv_eq_none {q : Queue α} : recv q = none ↔ q = [] := by
  cases q <;> simp [recv]

@[simp] theorem mem_send {q : Queue α} {data x : α} :
    x ∈ send q data ↔ x ∈ q ∨ x = data := by
  simp [send]

/-- An item that is not queued can be sent without a duplicate. -/
theorem nodup_send {q : Queue α} {data : α} (h : q.Nodup) (hd : data ∉ q) :
    (send q data).Nodup := by
  simp only [send, List.nodup_append, List.mem_singleton]
  refine ⟨h, by simp, fun x hx y hy he => hd ?_⟩
  rwa [← hy, ← he]

end Queue

end ZephyrRust.Sys
