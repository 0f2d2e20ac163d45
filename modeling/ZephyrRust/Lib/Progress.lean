import Mathlib.Algebra.BigOperators.Group.Finset.Basic
import ZephyrRust.Lib.Transition

/-!
# `ZephyrRust.Lib.Progress`: runs that come to rest

`M.LaterWhen P s s'` is a continuation from `s` to `s'` whose steps all satisfy `P`, a condition on
the state before a step and on the action. `M.StepsWhen P s n s'` also counts the steps. `M.Stuck P
s` says that no step from `s` satisfies `P`.

A measure that each step under `P` lowers bounds the length of each continuation
(`StepsWhen.le_of_measure`). So whatever the order of the steps is, such a continuation ends, and it
ends in a stuck state (`LaterWhen.exists_stuck`). What a stuck state is like is then a question
about one state, and not about schedules.

Often the measure is a sum of what the parties have left to do, and a step changes one term of it
(`sum_of_eq_off`).
-/

set_option autoImplicit false

namespace ZephyrRust.Lib

/-- A sum in which one term changes. -/
theorem sum_of_eq_off {ι : Type} [DecidableEq ι] {A : Finset ι} {i : ι} (hi : i ∈ A)
    {F G : ι → Nat} (h : ∀ j, j ≠ i → G j = F j) :
    ∑ j ∈ A, G j + F i = ∑ j ∈ A, F j + G i := by
  have hrest : ∑ j ∈ A.erase i, G j = ∑ j ∈ A.erase i, F j :=
    Finset.sum_congr rfl fun j hj => h j (Finset.ne_of_mem_erase hj)
  rw [← Finset.add_sum_erase A G hi, ← Finset.add_sum_erase A F hi, hrest]
  omega

namespace System

variable {σ α : Type} {M : System σ α} {P Q : σ → α → Prop} {s s' s₁ : σ}

/-- A continuation whose steps all satisfy `P`. -/
def LaterWhen (M : System σ α) (P : σ → α → Prop) : σ → σ → Prop :=
  Relation.ReflTransGen fun s s' => ∃ a, P s a ∧ M.step s a = some s'

/-- A continuation of `n` steps that all satisfy `P`. -/
inductive StepsWhen (M : System σ α) (P : σ → α → Prop) (s : σ) : Nat → σ → Prop
  | zero : StepsWhen M P s 0 s
  | succ {n : Nat} {s₁ s' : σ} {a : α} (h : StepsWhen M P s n s₁) (ha : P s₁ a)
      (hs : M.step s₁ a = some s') : StepsWhen M P s (n + 1) s'

/-- No step from `s` satisfies `P`. -/
def Stuck (M : System σ α) (P : σ → α → Prop) (s : σ) : Prop :=
  ∀ a, P s a → M.step s a = none

namespace LaterWhen

theorem refl : M.LaterWhen P s s := Relation.ReflTransGen.refl

theorem trans (h : M.LaterWhen P s s₁) (h' : M.LaterWhen P s₁ s') : M.LaterWhen P s s' :=
  Relation.ReflTransGen.trans h h'

theorem single {a : α} (ha : P s a) (hs : M.step s a = some s') : M.LaterWhen P s s' :=
  Relation.ReflTransGen.single ⟨a, ha, hs⟩

theorem mono (h : M.LaterWhen P s s') (hPQ : ∀ s a, P s a → Q s a) : M.LaterWhen Q s s' := by
  induction h with
  | refl => exact refl
  | tail _ hs ih =>
    obtain ⟨a, ha, hs⟩ := hs
    exact ih.trans (single (hPQ _ _ ha) hs)

/-- A predicate that each step under `P` keeps is kept by each continuation under `P`. -/
theorem stable {I : σ → Prop} (h : M.LaterWhen P s s') (hI : I s)
    (hstep : ∀ s a s', I s → P s a → M.step s a = some s' → I s') : I s' := by
  induction h with
  | refl => exact hI
  | tail _ hs ih =>
    obtain ⟨a, ha, hs⟩ := hs
    exact hstep _ a _ ih ha hs

theorem reachable (h : M.LaterWhen P s s') (hr : M.Reachable s) : M.Reachable s' :=
  h.stable hr fun _ _ _ hr _ hs => hr.next hs

end LaterWhen

/-- Each step under `P` lowers the measure `μ`, as long as `I` holds. -/
structure Lowers (M : System σ α) (P : σ → α → Prop) (I : σ → Prop) (μ : σ → Nat) : Prop where
  keeps : ∀ s a s', I s → P s a → M.step s a = some s' → I s'
  lowers : ∀ s a s', I s → P s a → M.step s a = some s' → μ s' < μ s

/-- The measure bounds the number of steps. -/
theorem StepsWhen.le_of_measure {I : σ → Prop} {μ : σ → Nat} {n : Nat} (hμ : M.Lowers P I μ)
    (hI : I s) (h : M.StepsWhen P s n s') : n ≤ μ s := by
  have hsum : I s' ∧ n + μ s' ≤ μ s := by
    induction h with
    | zero => exact ⟨hI, by omega⟩
    | succ _ ha hs ih =>
      obtain ⟨hI₁, hle⟩ := ih
      have hlt := hμ.lowers _ _ _ hI₁ ha hs
      exact ⟨hμ.keeps _ _ _ hI₁ ha hs, by omega⟩
  omega

/-- Steps under `P` lead to a stuck state. -/
theorem LaterWhen.exists_stuck {I : σ → Prop} {μ : σ → Nat} (hμ : M.Lowers P I μ) (hI : I s) :
    ∃ s', M.LaterWhen P s s' ∧ M.Stuck P s' := by
  -- Strong induction on the measure.
  induction hn : μ s using Nat.strongRecOn generalizing s with
  | ind n ih =>
    by_cases hstuck : M.Stuck P s
    · exact ⟨s, .refl, hstuck⟩
    · simp only [Stuck, not_forall] at hstuck
      obtain ⟨a, ha, hs⟩ := hstuck
      obtain ⟨s₁, hs₁⟩ := Option.ne_none_iff_exists'.mp hs
      have hlt := hμ.lowers s a s₁ hI ha hs₁
      obtain ⟨s', hl, hstuck'⟩ := ih (μ s₁) (hn ▸ hlt) (hμ.keeps s a s₁ hI ha hs₁) rfl
      exact ⟨s', (single ha hs₁).trans hl, hstuck'⟩

end System

end ZephyrRust.Lib
