import Mathlib.Order.WellFounded

/-!
# `ZephyrRust.Lib.LockOrder`: resources that are taken in order do not deadlock

Each resource has at most one holder, and a party waits for at most one resource. `LockOrder`
is the discipline: whoever waits for a resource holds only smaller ones. Where each ascending
chain of resources ends, somebody among the holders does not wait for a held resource
(`LockOrder.exists_unblocked`). The argument follows the waits upwards.
-/

set_option autoImplicit false

namespace ZephyrRust.Lib

variable {P R : Type} [Preorder R]

/-- Whoever waits for a resource holds only smaller ones. -/
def LockOrder (holder : R → Option P) (waits : P → Option R) : Prop :=
  ∀ p r r', waits p = some r → holder r' = some p → r' < r

/-- When a resource is held, some holder does not wait for a held resource. -/
theorem LockOrder.exists_unblocked [WellFoundedGT R] {holder : R → Option P}
    {waits : P → Option R} (h : LockOrder holder waits) {p : P} {r : R}
    (hr : holder r = some p) :
    ∃ q r', holder r' = some q ∧ ∀ r₁, waits q = some r₁ → holder r₁ = none := by
  -- Induction from the larger resources to the smaller ones.
  induction r using WellFoundedGT.induction generalizing p with
  | _ r ih =>
    cases hw : waits p with
    | none => exact ⟨p, r, hr, by simp [hw]⟩
    | some r₁ =>
      cases hh : holder r₁ with
      | none =>
        refine ⟨p, r, hr, fun r₂ hr₂ => ?_⟩
        cases hw.symm.trans hr₂
        exact hh
      | some q => exact ih r₁ (h p r₁ r hw hr) hh

end ZephyrRust.Lib
