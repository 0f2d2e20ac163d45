import Mathlib.Data.Finset.Card
import Mathlib.Logic.Function.Basic

/-!
# `ZephyrRust.Lib.Count`: how many parties are at a place

A system of parties is a function from the parties to their places. The type of the parties
can be infinite, and finitely many of them are at a place of interest. `Counts f p n` says that
`n` parties of `f` are at a place with `p`. A step moves one party, and `Counts.update` says
what that does to the number.
-/

set_option autoImplicit false

namespace ZephyrRust.Lib

variable {ι β : Type}

/-- Exactly `n` parties of `f` are at a place with `p`. -/
def Counts (f : ι → β) (p : β → Bool) (n : Nat) : Prop :=
  ∃ S : Finset ι, (∀ i, i ∈ S ↔ p (f i)) ∧ S.card = n

namespace Counts

variable {f : ι → β} {p : β → Bool} {n m : Nat}

/-- Nobody is at a place with `p`. -/
theorem zero (h : ∀ i, p (f i) = false) : Counts f p 0 :=
  ⟨∅, by simp [h], rfl⟩

/-- The number is unique. -/
theorem unique (hn : Counts f p n) (hm : Counts f p m) : n = m := by
  obtain ⟨S, hS, rfl⟩ := hn
  obtain ⟨R, hR, rfl⟩ := hm
  have hSR : S = R := by
    ext i
    rw [hS, hR]
  rw [hSR]

/-- A party that is there is counted. -/
theorem pos (h : Counts f p n) {i : ι} (hi : p (f i)) : 0 < n := by
  obtain ⟨S, hS, rfl⟩ := h
  exact Finset.card_pos.mpr ⟨i, (hS i).mpr hi⟩

/-- One party is no more than all. -/
theorem toNat_le (h : Counts f p n) (i : ι) : (p (f i)).toNat ≤ n := by
  cases hi : p (f i) with
  | true => exact h.pos hi
  | false => exact Nat.zero_le n

/-- The number after a step of party `i` to the place `b`: one more if `b` has `p`, and one less
if the old place had it. -/
theorem update [DecidableEq ι] (h : Counts f p n) {i : ι} {b : β}
    (hm : m + (p (f i)).toNat = n + (p b).toNat) : Counts (Function.update f i b) p m := by
  obtain ⟨S, hS, rfl⟩ := h
  cases hb : p b with
  | true =>
    refine ⟨insert i S, fun j => ?_, ?_⟩
    · by_cases hj : j = i
      · simp [hj, hb]
      · simp [hj, hS]
    · cases hi : p (f i) with
      | true =>
        rw [Finset.insert_eq_self.mpr ((hS i).mpr hi)]
        simpa [hb, hi] using hm.symm
      | false =>
        rw [Finset.card_insert_of_notMem fun hmem => by simp [(hS i).mp hmem] at hi]
        simpa [hb, hi] using hm.symm
  | false =>
    refine ⟨S.erase i, fun j => ?_, ?_⟩
    · by_cases hj : j = i
      · simp [hj, hb]
      · simp [hj, hS]
    · cases hi : p (f i) with
      | true =>
        have hcard := Finset.card_erase_add_one ((hS i).mpr hi)
        simp only [hb, hi, Bool.toNat_true, Bool.toNat_false] at hm
        omega
      | false =>
        rw [Finset.erase_eq_of_notMem fun hmem => by simp [(hS i).mp hmem] at hi]
        simpa [hb, hi] using hm.symm

/-- A step between two places that both have `p`, or both do not. -/
theorem update_same [DecidableEq ι] (h : Counts f p n) {i : ι} {b : β} (hb : p b = p (f i)) :
    Counts (Function.update f i b) p n :=
  h.update (by rw [hb])

end Counts

end ZephyrRust.Lib
