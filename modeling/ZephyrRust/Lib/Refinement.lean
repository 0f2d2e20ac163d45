import ZephyrRust.Lib.Transition

/-!
# `ZephyrRust.Lib.Refinement`: forward simulation and possible progress

`Refines M A R` says that the system `M` refines the abstract system `A` under the gluing
relation `R`: the start states are related, and a step of `M` is matched by some steps of `A`,
possibly by none. Then each reachable state of `M` is related to a reachable state of `A`
(`Refines.abstract`), so an invariant of `A` says something about `M`.

Progress is the other direction. `Reachable.laterBy_of_measure` shows that a goal stays
possible: when in each reachable state short of the goal some action lowers a measure, a
continuation reaches the goal. The actions of the continuation can be restricted, for example
to those that need no luck.
-/

set_option autoImplicit false

namespace ZephyrRust.Lib.System

variable {σ α τ β : Type} {M : System σ α} {A : System τ β} {R : σ → τ → Prop}

/-- `M` refines `A`: its steps are matched by steps of `A` through the gluing relation `R`. -/
structure Refines (M : System σ α) (A : System τ β) (R : σ → τ → Prop) : Prop where
  init : R M.init A.init
  step : ∀ s t a s', A.Reachable t → R s t → M.step s a = some s' →
    ∃ t', A.Later t t' ∧ R s' t'

/-- Each reachable state is related to a reachable abstract state. -/
theorem Refines.abstract (h : Refines M A R) {s : σ} (hs : M.Reachable s) :
    ∃ t, A.Reachable t ∧ R s t := by
  refine hs.invariant (I := fun s => ∃ t, A.Reachable t ∧ R s t) ⟨_, .start, h.init⟩ ?_
  rintro s a s' ⟨t, ht, hR⟩ hstep
  obtain ⟨t', hl, hR'⟩ := h.step s t a s' ht hR hstep
  exact ⟨t', ht.later hl, hR'⟩

/-- One step is a continuation. -/
theorem Later.single {s s' : σ} {a : α} (h : M.step s a = some s') : M.Later s s' :=
  Relation.ReflTransGen.single ⟨a, h⟩

/-- A goal stays possible when, short of it, some action that satisfies `P` lowers the measure
`μ`. -/
theorem Reachable.laterBy_of_measure {P : α → Prop} (Goal : σ → Prop) (μ : σ → Nat)
    (hstep : ∀ s, M.Reachable s → ¬Goal s →
      ∃ a s', P a ∧ M.step s a = some s' ∧ μ s' < μ s)
    {s : σ} (hs : M.Reachable s) : ∃ s', M.LaterBy P s s' ∧ Goal s' := by
  -- Strong induction on the measure.
  induction hn : μ s using Nat.strongRecOn generalizing s with
  | ind n ih =>
    by_cases hg : Goal s
    · exact ⟨s, .refl, hg⟩
    · obtain ⟨a, s₁, ha, hs₁, hlt⟩ := hstep s hs hg
      obtain ⟨s', hl, hg'⟩ := ih (μ s₁) (hn ▸ hlt) (hs.next hs₁) rfl
      exact ⟨s', .head ⟨a, ha, hs₁⟩ hl, hg'⟩

end ZephyrRust.Lib.System
