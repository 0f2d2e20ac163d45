import Mathlib.Logic.Function.Basic
import ZephyrRust.Lib.Transition

/-!
# `ZephyrRust.Lib.Linearizable`: histories and atomic objects

From outside, an object is its histories: the calls of its operations and what they return, in the
order in which they happen. Operations of different parties can overlap, so a history alone does not
say in which order they take effect.

In an atomic object, each operation takes effect at one moment between its call and its return, as a
specification says. `Linearizable L spec q` says that each history of `L` is a history of the atomic
object with the value `q` at the start. The specification is a relation, and it can look at the
operations of the other parties, for operations that are allowed to fail when others overlap.

`Linearizable.of_simulation` is the way to prove it: a gluing relation between the two states, where
each step of the object is matched by steps of the atomic object that show the same event.
-/

set_option autoImplicit false

namespace ZephyrRust.Lib

/-! ## Histories -/

/-- A transition system whose steps show an event or none. -/
structure Labelled (σ ε : Type) where
  init : σ
  step : σ → Option ε → σ → Prop

/-- The steps of a system, with the event of each. -/
def System.labelled {σ α ε : Type} (M : System σ α) (event : σ → α → σ → Option ε) :
    Labelled σ ε where
  init := M.init
  step s e s' := ∃ a, M.step s a = some s' ∧ event s a s' = e

namespace Labelled

variable {σ τ ε : Type} {L : Labelled σ ε} {A : Labelled τ ε}

/-- `L.History h s`: a run shows the events `h` and ends in `s`. -/
inductive History (L : Labelled σ ε) : List ε → σ → Prop
  | init : History L [] L.init
  | step {h : List ε} {s s' : σ} {e : Option ε} (hs : History L h s) (he : L.step s e s') :
      History L (h ++ e.toList) s'

/-- `L.Path s h s'`: some steps from `s` to `s'` show the events `h`. -/
inductive Path (L : Labelled σ ε) (s : σ) : List ε → σ → Prop
  | refl : Path L s [] s
  | step {h : List ε} {s₁ s' : σ} {e : Option ε} (hp : Path L s h s₁) (he : L.step s₁ e s') :
      Path L s (h ++ e.toList) s'

theorem Path.single {s s' : σ} {e : Option ε} (he : L.step s e s') : L.Path s e.toList s' :=
  .step .refl he

/-- A step that shows nothing, and then another one. -/
theorem Path.pair {s s₁ s' : σ} {e : Option ε} (h₁ : L.step s none s₁) (he : L.step s₁ e s') :
    L.Path s e.toList s' :=
  .step (.single h₁) he

theorem History.path {h k : List ε} {s s' : σ} (hh : L.History h s) (hp : L.Path s k s') :
    L.History (h ++ k) s' := by
  induction hp with
  | refl =>
    rw [List.append_nil]
    exact hh
  | step _ he ih =>
    rw [← List.append_assoc]
    exact ih.step he

/-- A run that shows a history is a run. -/
theorem History.reachable {α : Type} {M : System σ α} {event : σ → α → σ → Option ε} {h : List ε}
    {s : σ} (hh : (M.labelled event).History h s) : M.Reachable s := by
  induction hh with
  | init => exact .start
  | step _ he ih =>
    obtain ⟨a, hs, -⟩ := he
    exact ih.next hs

/-- `R` is a simulation: the steps of `L` are matched by steps of `A` with the same events. -/
structure Simulation (L : Labelled σ ε) (A : Labelled τ ε) (R : σ → τ → Prop) : Prop where
  init : R L.init A.init
  step : ∀ h s t e s', L.History h s → R s t → L.step s e s' →
    ∃ t', A.Path t e.toList t' ∧ R s' t'

theorem Simulation.history {R : σ → τ → Prop} (hR : Simulation L A R) {h : List ε} {s : σ}
    (hh : L.History h s) : ∃ t, A.History h t ∧ R s t := by
  induction hh with
  | init => exact ⟨A.init, .init, hR.init⟩
  | step hs he ih =>
    obtain ⟨t, ht, hst⟩ := ih
    obtain ⟨t', hp, hst'⟩ := hR.step _ _ _ _ _ hs hst he
    exact ⟨t', ht.path hp, hst'⟩

end Labelled

/-! ## Atomic objects -/

/-- What the parties `ι` see of an object. -/
inductive Event (ι Op Res : Type)
  | call (i : ι) (op : Op)
  | ret (i : ι) (r : Res)

/-- Where a party is: in no operation, in one that has not taken effect, or in one that has. -/
inductive Phase (Op Res : Type)
  | idle
  | called (op : Op)
  | done (r : Res)

/-- The value of an atomic object, and its parties. -/
structure Atomic (ι Q Op Res : Type) where
  val : Q
  phase : ι → Phase Op Res

variable {ι Q Op Res σ : Type} [DecidableEq ι]

namespace Atomic

/-- Party `i` goes on to the phase `p`. -/
def goto (t : Atomic ι Q Op Res) (i : ι) (p : Phase Op Res) : Atomic ι Q Op Res :=
  { t with phase := Function.update t.phase i p }

/-- The steps. `spec t i op r q` says that the operation `op` of party `i` can return `r` and leave
the value `q`. -/
inductive Step (spec : Atomic ι Q Op Res → ι → Op → Res → Q → Prop) (t : Atomic ι Q Op Res) :
    Option (Event ι Op Res) → Atomic ι Q Op Res → Prop
  | call {i : ι} {op : Op} (h : t.phase i = .idle) :
      Step spec t (some (.call i op)) (t.goto i (.called op))
  | effect {i : ι} {op : Op} {r : Res} {q : Q} (h : t.phase i = .called op)
      (hspec : spec t i op r q) : Step spec t none ({ t with val := q }.goto i (.done r))
  | ret {i : ι} {r : Res} (h : t.phase i = .done r) :
      Step spec t (some (.ret i r)) (t.goto i .idle)

/-- The atomic object. -/
def object (spec : Atomic ι Q Op Res → ι → Op → Res → Q → Prop) (q : Q) :
    Labelled (Atomic ι Q Op Res) (Event ι Op Res) where
  init := ⟨q, fun _ => .idle⟩
  step := Step spec

variable {spec : Atomic ι Q Op Res → ι → Op → Res → Q → Prop} {t : Atomic ι Q Op Res} {q₀ q : Q}
variable {i : ι} {op : Op} {r : Res}

/-- An operation that takes effect when it returns. -/
theorem path_return (h : t.phase i = .called op) (hspec : spec t i op r q) :
    (object spec q₀).Path t [.ret i r] ({ t with val := q }.goto i .idle) := by
  have heffect : (object spec q₀).step t none ({ t with val := q }.goto i (.done r)) :=
    .effect h hspec
  have hret : (object spec q₀).step ({ t with val := q }.goto i (.done r)) (some (.ret i r))
      (({ t with val := q }.goto i (.done r)).goto i .idle) := .ret (Function.update_self ..)
  have hgoto : ({ t with val := q }.goto i (.done r)).goto i .idle =
      { t with val := q }.goto i .idle := by
    unfold goto
    rw [Function.update_idem]
  rw [hgoto] at hret
  exact .pair heffect hret

/-- An object state and a state of the atomic object that show the same: the atomic object has the
value `value s`, and each party is in a phase that `place` allows. -/
structure Glued (value : σ → Q) (place : σ → ι → Phase Op Res → Prop) (s : σ)
    (t : Atomic ι Q Op Res) : Prop where
  val : t.val = value s
  phase : ∀ j, place s j (t.phase j)

variable {value : σ → Q} {place : σ → ι → Phase Op Res → Prop} {s s' : σ} {p : Phase Op Res}

omit [DecidableEq ι] in
/-- The atomic object does nothing. -/
theorem Glued.stay (h : Glued value place s t) (hval : value s' = value s)
    (hi : ∀ p, place s i p → place s' i p) (hj : ∀ j, j ≠ i → ∀ p, place s j p → place s' j p) :
    Glued value place s' t := by
  refine ⟨h.val.trans hval.symm, fun j => ?_⟩
  by_cases hij : j = i
  · subst hij
    exact hi _ (h.phase j)
  · exact hj j hij _ (h.phase j)

/-- Party `i` goes on to the phase `p`, and the value to that of the object. -/
theorem Glued.goto (h : Glued value place s t) (hi : place s' i p)
    (hj : ∀ j, j ≠ i → ∀ p, place s j p → place s' j p) :
    Glued value place s' ({ t with val := value s' }.goto i p) := by
  refine ⟨rfl, fun j => ?_⟩
  by_cases hij : j = i
  · subst hij
    show place s' j (Function.update t.phase j p j)
    rwa [Function.update_self]
  · show place s' j (Function.update t.phase i p j)
    rw [Function.update_of_ne hij]
    exact hj j hij _ (h.phase j)

/-- The same when the value stays. -/
theorem Glued.goto_same (h : Glued value place s t) (hval : value s' = value s)
    (hi : place s' i p) (hj : ∀ j, j ≠ i → ∀ p, place s j p → place s' j p) :
    Glued value place s' (t.goto i p) := by
  have hgoto := h.goto hi hj
  rw [hval, ← h.val] at hgoto
  exact hgoto

end Atomic

/-- Each history of `L` is one of the atomic object. -/
def Linearizable (L : Labelled σ (Event ι Op Res))
    (spec : Atomic ι Q Op Res → ι → Op → Res → Q → Prop) (q : Q) : Prop :=
  ∀ h s, L.History h s → ∃ t, (Atomic.object spec q).History h t

theorem Linearizable.of_simulation {L : Labelled σ (Event ι Op Res)}
    {spec : Atomic ι Q Op Res → ι → Op → Res → Q → Prop} {q : Q}
    {R : σ → Atomic ι Q Op Res → Prop} (hR : Labelled.Simulation L (Atomic.object spec q) R) :
    Linearizable L spec q := by
  intro h s hs
  obtain ⟨t, ht, -⟩ := hR.history hs
  exact ⟨t, ht⟩

end ZephyrRust.Lib
