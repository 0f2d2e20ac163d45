import Mathlib.Logic.Basic

/-!
# `ZephyrRust.Sys.Semaphore`: the `k_sem` wrapper

`zephyr::sys::sync::Semaphore` wraps a kernel `k_sem`: a count with an upper limit, and the
threads that wait for it. The kernel runs each operation under its own lock, so one call is one
atomic step. A give hands the semaphore to a waiting thread, and the count does not change
then. Without a waiting thread it adds to the count, and at the limit it is discarded.

The first use of the object runs `k_sem_init` with the count and the limit that `new` has put
into it, so the model starts from these.
-/

set_option autoImplicit false

namespace ZephyrRust.Sys

/-- A `k_sem`. -/
structure Semaphore (Tid : Type) where
  count : Nat
  limit : Nat
  /-- The threads that wait in `k_sem_take`, the next one to be woken first. -/
  waiters : List Tid
  count_le : count ≤ limit

namespace Semaphore

variable {Tid : Type}

/-- `Semaphore::new`. `none` is the panic "Invalid semaphore initialization". -/
def new (initialCount limit : Nat) : Option (Semaphore Tid) :=
  if h : limit = 0 ∨ limit < initialCount then none
  else some
    { count := initialCount
      limit := limit
      waiters := []
      count_le := Nat.le_of_not_lt fun hlt => h (Or.inr hlt) }

/-- `Semaphore::take` with `Forever`, that is `k_sem_take` with `K_FOREVER`, by thread `t`. The
flag says whether the call returns at once. If not, the thread waits. -/
def take (k : Semaphore Tid) (t : Tid) : Bool × Semaphore Tid :=
  if 0 < k.count then
    (true, { k with
      count := k.count - 1
      count_le := Nat.le_trans (Nat.sub_le k.count 1) k.count_le })
  else (false, { k with waiters := k.waiters ++ [t] })

/-- `Semaphore::give`, that is `k_sem_give`: the thread whose take returns by it, if any, and
the semaphore after it. -/
def give (k : Semaphore Tid) : Option Tid × Semaphore Tid :=
  match k.waiters with
  | t :: rest => (some t, { k with waiters := rest })
  | [] =>
    if h : k.count = k.limit then (none, k)
    else (none, { k with
      count := k.count + 1
      count_le := Nat.lt_of_le_of_ne k.count_le h })

/-- A take that finds the count above 0 takes one. -/
theorem take_of_pos {k : Semaphore Tid} (t : Tid) (h : 0 < k.count) :
    (k.take t).1 = true ∧ (k.take t).2.count = k.count - 1 ∧
      (k.take t).2.limit = k.limit ∧ (k.take t).2.waiters = k.waiters := by
  rw [take, if_pos h]
  exact ⟨rfl, rfl, rfl, rfl⟩

/-- A take that finds the count at 0 waits. -/
theorem take_of_zero {k : Semaphore Tid} (t : Tid) (h : k.count = 0) :
    k.take t = (false, { k with waiters := k.waiters ++ [t] }) := by
  rw [take, if_neg (by omega)]

/-- A give with a waiting thread wakes it, and keeps the count. -/
theorem give_of_cons {k : Semaphore Tid} {t : Tid} {rest : List Tid}
    (h : k.waiters = t :: rest) : k.give = (some t, { k with waiters := rest }) := by
  obtain ⟨count, limit, waiters, hle⟩ := k
  subst h
  rfl

/-- A give without a waiting thread leaves the count above 0. -/
theorem give_of_nil {k : Semaphore Tid} (h : k.waiters = []) (hpos : 0 < k.limit) :
    k.give.1 = none ∧ 0 < k.give.2.count ∧ k.give.2.limit = k.limit ∧
      k.give.2.waiters = [] := by
  obtain ⟨count, limit, waiters, hle⟩ := k
  subst h
  simp only [give]
  split
  · rename_i heq
    have heq' : count = limit := heq
    exact ⟨rfl, heq'.symm ▸ hpos, rfl, rfl⟩
  · exact ⟨rfl, Nat.succ_pos count, rfl, rfl⟩

end Semaphore

end ZephyrRust.Sys
