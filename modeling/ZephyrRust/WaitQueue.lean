import Mathlib.Data.List.Basic

/-!
# `ZephyrRust.WaitQueue`: the contract of `embassy_sync::waitqueue`

The blocking pool keeps the wakers of its tasks in two containers of the `embassy_sync`
crate: one `AtomicWaker` in each slot, and one `MultiWakerRegistration` for the tasks that
wait for a slot. The crate is not part of this repository. So the pool is modelled over
any implementation of the contract below: a type of values, the two operations, and what
the documentation promises about them. An operation returns the wakers that it wakes.

`AtomicWaker.cell` and `MultiWakerRegistration.vec` are two concrete implementations.
-/

set_option autoImplicit false

namespace ZephyrRust

/-- An `AtomicWaker` for wakers of type `W`. `stored` is the waker that a `wake` wakes. What
a `wake` leaves in the cell is not fixed: an implementation may keep the waker or drop
it. -/
structure AtomicWaker (W : Type) where
  Cell : Type
  new : Cell
  stored : Cell → Option W
  register : Cell → W → Cell
  wake : Cell → Cell × Option W
  /-- `register` stores the given waker. -/
  stored_register : ∀ c w, stored (register c w) = some w
  /-- `wake` wakes the stored waker. -/
  wake_stored : ∀ c, (wake c).2 = stored c

/-- A `MultiWakerRegistration` for wakers of type `W`. `wakers` are the stored wakers. -/
structure MultiWakerRegistration (W : Type) where
  Reg : Type
  new : Reg
  wakers : Reg → List W
  register : Reg → W → Reg × List W
  wake : Reg → Reg × List W
  /-- `register` keeps the given waker. -/
  mem_register : ∀ r w, w ∈ wakers (register r w).1
  /-- A stored waker stays stored at a `register`, unless the container is full and
  `register` first wakes and clears all stored wakers. -/
  register_keeps : ∀ r w, ∀ w' ∈ wakers r,
    w' ∈ wakers (register r w).1 ∨ w' ∈ (register r w).2
  /-- `wake` wakes every stored waker. -/
  wake_all : ∀ r, ∀ w ∈ wakers r, w ∈ (wake r).2
  /-- `wake` clears the container. -/
  wake_clears : ∀ r, wakers (wake r).1 = []

/-- An `AtomicWaker` as an optional waker. A `wake` keeps the waker in the cell. -/
def AtomicWaker.cell (W : Type) : AtomicWaker W where
  Cell := Option W
  new := none
  stored c := c
  register _ w := some w
  wake c := (c, c)
  stored_register _ _ := rfl
  wake_stored _ := rfl

/-- A `MultiWakerRegistration` as a vector of at most `max cap 1` wakers. A waker that is
already stored is not stored again. A full vector is woken and cleared before the new waker
goes in. -/
def MultiWakerRegistration.vec (W : Type) [DecidableEq W] (cap : Nat) :
    MultiWakerRegistration W where
  Reg := List W
  new := []
  wakers ws := ws
  register ws w :=
    if w ∈ ws then (ws, []) else if ws.length < cap then (ws ++ [w], []) else ([w], ws)
  wake ws := ([], ws)
  mem_register ws w := by
    split
    · assumption
    · split <;> simp
  register_keeps ws w w' h := by
    split
    · exact Or.inl h
    · split
      · exact Or.inl (List.mem_append_left _ h)
      · exact Or.inr h
  wake_all _ _ h := h
  wake_clears _ := rfl

end ZephyrRust
