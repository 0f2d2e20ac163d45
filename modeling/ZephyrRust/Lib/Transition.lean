import Mathlib.Logic.Relation
import Mathlib.Logic.Function.Basic

/-!
# `ZephyrRust.Lib.Transition`: partial transition systems and their invariants

A system is a start state and a partial step function: `step s a` is the state after the
action `a`, or `none` when `a` is not enabled in `s` (the party waits for a lock, or a
queue is empty). All nondeterminism is in the choice of the action: which party moves, and
every value the environment hands to it.

`ReachableBy P` are the states of the runs whose steps all satisfy `P`, a condition on the
state before a step and on the action. `Reachable` is the case without a condition.
`ReachableBy.invariant` is the induction of every safety proof: a predicate that holds at
the start and that every step keeps holds in every reachable state. `Later` relates a
state to the states of its continuations, and `Later.stable` is the same induction from
an arbitrary state. `LaterBy` is the case where only some actions happen. `exec` runs a
list of actions, and `reachable_of_exec` turns such a run into a reachable state. `execBy`
does so under a condition.
-/

set_option autoImplicit false

namespace ZephyrRust.Lib

/-- A transition system: a start state, and a step function that is `none` on an action
that is not enabled. -/
structure System (σ α : Type) where
  init : σ
  step : σ → α → Option σ

namespace System

variable {σ α : Type} (M : System σ α)

/-- The states that `M` reaches from its start state through steps that all satisfy `P`. -/
inductive ReachableBy (P : σ → α → Prop) : σ → Prop
  | init : ReachableBy P M.init
  | step {s s' : σ} {a : α} :
      ReachableBy P s → P s a → M.step s a = some s' → ReachableBy P s'

/-- The states of the runs of `M`. -/
def Reachable : σ → Prop := M.ReachableBy fun _ _ => True

/-- `M.Later s s'`: a continuation of a run that is in `s` reaches `s'`. -/
def Later : σ → σ → Prop := Relation.ReflTransGen fun s s' => ∃ a, M.step s a = some s'

/-- `M.LaterBy P s s'`: a continuation whose actions all satisfy `P` reaches `s'`. -/
def LaterBy (P : α → Prop) : σ → σ → Prop :=
  Relation.ReflTransGen fun s s' => ∃ a, P a ∧ M.step s a = some s'

/-- The state after a list of actions, or `none` when one of them is not enabled. -/
def exec (s : σ) : List α → Option σ
  | [] => some s
  | a :: as => (M.step s a).bind fun s' => exec s' as

/-- The state after a list of actions that all satisfy `P`, or `none` when one of them does not
or is not enabled. -/
def execBy (P : σ → α → Prop) [∀ s a, Decidable (P s a)] (s : σ) : List α → Option σ
  | [] => some s
  | a :: as => if P s a then (M.step s a).bind fun s' => execBy P s' as else none

variable {M}

/-- A list of actions and then another one. -/
theorem exec_append (s : σ) (as bs : List α) :
    M.exec s (as ++ bs) = (M.exec s as).bind fun s' => M.exec s' bs := by
  induction as generalizing s with
  | nil => rfl
  | cons a as ih =>
    rw [List.cons_append, exec, exec, Option.bind_assoc]
    exact congrArg _ (funext fun s' => ih s')

/-- A predicate holds in every state of the runs under `P` when it holds at the start and
every step that satisfies `P` keeps it. -/
theorem ReachableBy.invariant {P : σ → α → Prop} {I : σ → Prop} {s : σ}
    (h : M.ReachableBy P s) (hinit : I M.init)
    (hstep : ∀ s a s', I s → P s a → M.step s a = some s' → I s') : I s := by
  induction h with
  | init => exact hinit
  | step _ hP hs ih => exact hstep _ _ _ ih hP hs

/-- A predicate holds in every reachable state when it holds at the start and every step
keeps it. -/
theorem Reachable.invariant {I : σ → Prop} {s : σ} (h : M.Reachable s) (hinit : I M.init)
    (hstep : ∀ s a s', I s → M.step s a = some s' → I s') : I s :=
  ReachableBy.invariant h hinit fun s a s' hs _ h' => hstep s a s' hs h'

/-- A run under a condition is a run under a weaker one. -/
theorem ReachableBy.mono {P Q : σ → α → Prop} {s : σ} (h : M.ReachableBy P s)
    (hPQ : ∀ s a, P s a → Q s a) : M.ReachableBy Q s := by
  induction h with
  | init => exact .init
  | step _ hP hs ih => exact ih.step (hPQ _ _ hP) hs

theorem Reachable.start : M.Reachable M.init := ReachableBy.init

theorem Reachable.next {s s' : σ} {a : α} (h : M.Reachable s)
    (hs : M.step s a = some s') : M.Reachable s' :=
  ReachableBy.step h trivial hs

/-- A continuation of a run stays among the reachable states. -/
theorem Reachable.later {s s' : σ} (h : M.Reachable s) (hl : M.Later s s') :
    M.Reachable s' := by
  induction hl with
  | refl => exact h
  | tail _ hs ih =>
    obtain ⟨a, ha⟩ := hs
    exact ih.next ha

/-- A predicate that every step from a reachable state keeps is kept by every
continuation. -/
theorem Later.stable {I : σ → Prop} {s s' : σ} (hr : M.Reachable s) (hl : M.Later s s')
    (hI : I s)
    (hstep : ∀ s a s', M.Reachable s → I s → M.step s a = some s' → I s') : I s' := by
  induction hl with
  | refl => exact hI
  | tail hl hs ih =>
    obtain ⟨a, ha⟩ := hs
    exact hstep _ a _ (hr.later hl) ih ha

theorem LaterBy.later {P : α → Prop} {s s' : σ} (h : M.LaterBy P s s') : M.Later s s' := by
  induction h with
  | refl => exact .refl
  | tail _ hs ih =>
    obtain ⟨a, -, ha⟩ := hs
    exact ih.tail ⟨a, ha⟩

/-- A list of actions that satisfy `P` is such a continuation. -/
theorem LaterBy.of_exec {P : α → Prop} {s s' : σ} {as : List α} (hP : ∀ a ∈ as, P a)
    (he : M.exec s as = some s') : M.LaterBy P s s' := by
  induction as generalizing s with
  | nil =>
    cases he
    exact .refl
  | cons a as ih =>
    obtain ⟨s₁, hs₁, he₁⟩ := Option.bind_eq_some_iff.mp he
    have h₁ := ih (fun b hb => hP b (List.mem_cons_of_mem a hb)) he₁
    exact .head ⟨a, hP a List.mem_cons_self, hs₁⟩ h₁

/-- A predicate that every step with an action of `P` keeps is kept by every such
continuation. -/
theorem LaterBy.stable {P : α → Prop} {I : σ → Prop} {s s' : σ} (hr : M.Reachable s)
    (hl : M.LaterBy P s s') (hI : I s)
    (hstep : ∀ s a s', M.Reachable s → P a → I s → M.step s a = some s' → I s') : I s' := by
  induction hl with
  | refl => exact hI
  | tail hl hs ih =>
    obtain ⟨a, hP, ha⟩ := hs
    exact hstep _ a _ (hr.later (LaterBy.later hl)) hP ih ha

/-- A list of actions that satisfy `P` keeps reachability under `P`. -/
theorem ReachableBy.exec {P : σ → α → Prop} {s s' : σ} (h : M.ReachableBy P s)
    {as : List α} (hP : ∀ s, ∀ a ∈ as, P s a) (he : M.exec s as = some s') :
    M.ReachableBy P s' := by
  induction as generalizing s with
  | nil =>
    cases he
    exact h
  | cons a as ih =>
    obtain ⟨s₁, hs₁, he₁⟩ := Option.bind_eq_some_iff.mp he
    have h₁ := h.step (hP s a List.mem_cons_self) hs₁
    exact ih h₁ (fun s b hb => hP s b (List.mem_cons_of_mem a hb)) he₁

/-- A run whose steps are checked for `P` keeps reachability under `P`. -/
theorem ReachableBy.execBy {P : σ → α → Prop} [∀ s a, Decidable (P s a)] {s s' : σ}
    (h : M.ReachableBy P s) {as : List α} (he : M.execBy P s as = some s') :
    M.ReachableBy P s' := by
  induction as generalizing s with
  | nil =>
    cases he
    exact h
  | cons a as ih =>
    rw [System.execBy] at he
    split at he
    · rename_i ha
      obtain ⟨s₁, hs₁, he₁⟩ := Option.bind_eq_some_iff.mp he
      exact ih (h.step ha hs₁) he₁
    · cases he

/-- A list of actions that satisfy `P`, whose run from the start ends in a state with the
decided property `p`, gives a state with `p` that is reachable under `P`. -/
theorem reachableBy_of_exec {P : σ → α → Prop} (as : List α) (p : σ → Bool)
    (hP : ∀ s, ∀ a ∈ as, P s a) (h : (M.exec M.init as).map p = some true) :
    ∃ s, M.ReachableBy P s ∧ p s = true := by
  obtain ⟨s, hs, hp⟩ := Option.map_eq_some_iff.mp h
  exact ⟨s, ReachableBy.init.exec hP hs, hp⟩

/-- The same for a condition that is decided at each step of the run. -/
theorem reachableBy_of_execBy {P : σ → α → Prop} [∀ s a, Decidable (P s a)] (as : List α)
    (p : σ → Bool) (h : (M.execBy P M.init as).map p = some true) :
    ∃ s, M.ReachableBy P s ∧ p s = true := by
  obtain ⟨s, hs, hp⟩ := Option.map_eq_some_iff.mp h
  exact ⟨s, ReachableBy.init.execBy hs, hp⟩

/-- A list of actions whose run from the start ends in a state with the decided property
`p` gives a reachable state with `p`. -/
theorem reachable_of_exec (as : List α) (p : σ → Bool)
    (h : (M.exec M.init as).map p = some true) : ∃ s, M.Reachable s ∧ p s = true :=
  reachableBy_of_exec as p (fun _ _ _ => trivial) h

end System

end ZephyrRust.Lib
