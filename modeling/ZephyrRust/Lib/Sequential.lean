import Mathlib.Data.List.Basic
import ZephyrRust.Lib.Transition

/-!
# `ZephyrRust.Lib.Sequential`: sequential specifications and the FIFO

A sequential specification says what an operation returns and which state it leaves, as a
function of the state before. An object implements it when each complete operation does the
same through an abstraction function (`ActsAs`), and then so does every sequence of complete
operations (`ActsAs.runs`).

The operations of a `Calls` take several steps of a transition system, and any number of
parties call them. `Calls.actsAs` is the induction over the steps of one operation that no
other operation overlaps.

`fifo` is the specification of a first-in first-out queue, with or without a bound on its
length.
-/

set_option autoImplicit false

namespace ZephyrRust.Lib

/-! ## Specifications -/

section
variable {σ Q Op Res : Type}

/-- Complete operations one after another, each with what it returned. -/
inductive Runs (impl : σ → Op → Res → σ → Prop) : σ → List (Op × Res) → σ → Prop
  | nil {s : σ} : Runs impl s [] s
  | cons {s s₁ s' : σ} {op : Op} {r : Res} {h : List (Op × Res)} :
      impl s op r s₁ → Runs impl s₁ h s' → Runs impl s ((op, r) :: h) s'

/-- The operations of a specification. -/
def Specified (spec : Q → Op → Res × Q) (q : Q) (op : Op) (r : Res) (q' : Q) : Prop :=
  spec q op = (r, q')

/-- From the states `valid` on, the operations of `impl` do what `spec` says of the abstract
states, and end in `valid` states. -/
def ActsAs (impl : σ → Op → Res → σ → Prop) (spec : Q → Op → Res × Q) (valid : σ → Prop)
    (abs : σ → Q) : Prop :=
  ∀ s op r s', valid s → impl s op r s' → valid s' ∧ Specified spec (abs s) op r (abs s')

variable {impl : σ → Op → Res → σ → Prop} {spec : Q → Op → Res × Q} {valid : σ → Prop}
variable {abs : σ → Q}

/-- What holds of each operation holds of every sequence of operations. -/
theorem ActsAs.runs (h : ActsAs impl spec valid abs) {s s' : σ} {ops : List (Op × Res)}
    (hs : valid s) (hr : Runs impl s ops s') :
    valid s' ∧ Runs (Specified spec) (abs s) ops (abs s') := by
  induction hr with
  | nil => exact ⟨hs, .nil⟩
  | cons hop _ ih =>
    obtain ⟨hs₁, hspec⟩ := h _ _ _ _ hs hop
    obtain ⟨hs', hrest⟩ := ih hs₁
    exact ⟨hs', .cons hspec hrest⟩

end

/-! ## Operations of several steps -/

/-- A system whose parties call operations. The action `call i op` starts `op`, `isCall` are
the actions that start an operation, and `result` is what a party returned last, when it is
in no operation. -/
structure Calls (σ α ι Op Res : Type) where
  system : System σ α
  call : ι → Op → α
  isCall : α → Bool
  party : α → ι
  atRest : σ → ι → Bool
  result : σ → ι → Option Res

namespace Calls

variable {σ α ι Op Res : Type} (C : Calls σ α ι Op Res)

/-- A state of a run in which no operation is under way. -/
def Quiet (s : σ) : Prop := C.system.Reachable s ∧ ∀ i, C.atRest s i

/-- A complete operation of a party: its call, and then no further call until it returns. -/
def Operation (s : σ) (op : ι × Op) (r : Res) (s' : σ) : Prop :=
  ∃ s₁, C.system.step s (C.call op.1 op.2) = some s₁ ∧
    C.system.LaterBy (fun a => C.isCall a = false) s₁ s' ∧ C.result s' op.1 = some r

variable {C}

/-- A list of actions inside the call, after which the party has returned. -/
theorem Operation.of_exec {s : σ} {i : ι} {op : Op} {r : Res} (as : List α)
    (has : ∀ a ∈ as, C.isCall a = false)
    (he : (C.system.exec s (C.call i op :: as)).bind (C.result · i) = some r) :
    ∃ s', C.Operation s (i, op) r s' := by
  obtain ⟨s', hs', hr⟩ := Option.bind_eq_some_iff.mp he
  obtain ⟨s₁, hs₁, hrun⟩ := Option.bind_eq_some_iff.mp hs'
  exact ⟨s', s₁, hs₁, .of_exec has hrun, hr⟩

/-- `Did s₀ op i s` is what `op` has done in `s` when party `i` called it in the quiet state
`s₀`. It holds after the call, and the steps inside the operation keep it. All of them are
steps of `i`, because the others are at rest. At the end it is what `spec` says. -/
theorem actsAs {Q : Type} {spec : Q → Op → Res × Q} {abs : σ → Q}
    (Did : σ → Op → ι → σ → Prop)
    (hcall : ∀ s₀ i op s, C.system.step s₀ (C.call i op) = some s →
      Did s₀ op i s ∧ ∀ j, j ≠ i → C.atRest s j = C.atRest s₀ j)
    (hstep : ∀ s a s', C.isCall a = false → C.system.step s a = some s' →
      C.atRest s (C.party a) = false ∧ ∀ j, j ≠ C.party a → C.atRest s' j = C.atRest s j)
    (hdid : ∀ s₀ op s a s', C.Quiet s₀ → Did s₀ op (C.party a) s → C.isCall a = false →
      C.system.step s a = some s' → Did s₀ op (C.party a) s')
    (hreturn : ∀ s₀ i op s r, C.Quiet s₀ → Did s₀ op i s → C.result s i = some r →
      C.atRest s i ∧ Specified spec (abs s₀) op r (abs s)) :
    ActsAs C.Operation (fun q op => spec q op.2) C.Quiet abs := by
  rintro s₀ ⟨i, op⟩ r s hq ⟨s₁, hs₁, hl, hr⟩
  have hr₁ := hq.1.next hs₁
  obtain ⟨h₁, hrest₁⟩ := hcall s₀ i op s₁ hs₁
  have hdone : Did s₀ op i s ∧ ∀ j, j ≠ i → C.atRest s j = C.atRest s₀ j := by
    refine hl.stable (I := fun s => Did s₀ op i s ∧ ∀ j, j ≠ i → C.atRest s j = C.atRest s₀ j)
      hr₁ ⟨h₁, hrest₁⟩ fun s a s' _ ha hI hs => ?_
    obtain ⟨hbusy, hframe⟩ := hstep s a s' ha hs
    have hparty : C.party a = i := by
      by_contra hne
      rw [hI.2 _ hne, hq.2] at hbusy
      cases hbusy
    rw [hparty] at hframe
    exact ⟨hparty ▸ hdid s₀ op s a s' hq (hparty ▸ hI.1) ha hs,
      fun j hj => (hframe j hj).trans (hI.2 j hj)⟩
  obtain ⟨hrest, hspec⟩ := hreturn s₀ i op s r hq hdone.1 hr
  refine ⟨⟨hr₁.later hl.later, fun j => ?_⟩, hspec⟩
  by_cases hj : j = i
  · rw [hj]
    exact hrest
  · rw [hdone.2 j hj]
    exact hq.2 j

end Calls

/-! ## The FIFO -/

/-- The operations of a FIFO. -/
inductive FifoOp (T : Type)
  | push (x : T)
  | pop

/-- What they return. A push that finds no room gives its element back. -/
inductive FifoRes (T : Type)
  | pushed
  | full (x : T)
  | popped (x : T)
  | empty
  deriving DecidableEq

/-- The FIFO with the capacity `cap`, without a bound for `none`. The oldest element is the
first of the list. -/
def fifo {T : Type} (cap : Option Nat) (q : List T) : FifoOp T → FifoRes T × List T
  | .push x => if cap = some q.length then (.full x, q) else (.pushed, q ++ [x])
  | .pop =>
    match q with
    | [] => (.empty, [])
    | x :: rest => (.popped x, rest)

section
variable {T : Type} {cap : Option Nat} {q q' : List T} {r : FifoRes T} {x : T}

theorem fifo_push_of_full (h : cap = some q.length) : fifo cap q (.push x) = (.full x, q) :=
  if_pos h

theorem fifo_push_of_room (h : cap ≠ some q.length) :
    fifo cap q (.push x) = (.pushed, q ++ [x]) :=
  if_neg h

/-- A push fails exactly on a full queue. -/
theorem push_full_iff (h : Specified (fifo cap) q (.push x) r q') :
    r = .full x ↔ cap = some q.length := by
  by_cases hfull : cap = some q.length
  · cases h.symm.trans (fifo_push_of_full hfull)
    simp [hfull]
  · cases h.symm.trans (fifo_push_of_room hfull)
    simp [hfull]

/-- A pop fails exactly on an empty queue. -/
theorem pop_empty_iff (h : Specified (fifo cap) q .pop r q') : r = .empty ↔ q = [] := by
  cases q with
  | nil | cons x rest =>
    cases h
    simp

variable {σ α ι : Type}

/-- Without overlapping operations, the object is a FIFO of the capacity `cap` with the
elements `queued s`. -/
structure Calls.IsFifo (C : Calls σ α ι (FifoOp T) (FifoRes T)) (cap : Option Nat)
    (queued : σ → List T) : Prop where
  acts : ActsAs C.Operation (fun q op => fifo cap q op.2) C.Quiet queued
  push_full : ∀ s i x r s', C.Quiet s → C.Operation s (i, .push x) r s' →
    (r = .full x ↔ cap = some (queued s).length)
  pop_empty : ∀ s i r s', C.Quiet s → C.Operation s (i, .pop) r s' →
    (r = .empty ↔ queued s = [])
  runs : ∀ s ops s', C.Quiet s → Runs C.Operation s ops s' →
    Runs (Specified fun q op => fifo cap q op.2) (queued s) ops (queued s')

/-- It is enough that each operation is one of the FIFO. -/
theorem Calls.IsFifo.of_actsAs {C : Calls σ α ι (FifoOp T) (FifoRes T)} {queued : σ → List T}
    (h : ActsAs C.Operation (fun q op => fifo cap q op.2) C.Quiet queued) :
    C.IsFifo cap queued where
  acts := h
  push_full s i x r s' hq hop := push_full_iff (h s (i, .push x) r s' hq hop).2
  pop_empty s i r s' hq hop := pop_empty_iff (h s (i, .pop) r s' hq hop).2
  runs _ _ _ hq hr := (h.runs hq hr).2

end

end ZephyrRust.Lib
