import Mathlib.Algebra.Order.BigOperators.Group.Finset
import Mathlib.Data.Fintype.Fin
import Mathlib.Data.Fintype.Order
import Mathlib.Order.Fin.Basic
import ZephyrRust.Lib.LockOrder
import ZephyrRust.Lib.Refinement
import ZephyrRust.Philosophers

/-!
# `ZephyrRust.Proofs.Philosophers`: what the philosophers get from a `ForkSync`

`Serves S` is what the sample relies on: no two philosophers have the same fork, no `unwrap` or
explicit panic of the implementation fails, and each philosopher can still get to eat, from
every reachable state. The last part excludes deadlocks, also of some of the philosophers.

The proof has two parts. The first is about the philosophers over the abstract `locks`. `Seated`
says which forks each philosopher holds at each place. It gives `Usage`, the discipline with
which the philosophers use the forks: a fork has two users, it is released by its holder only,
and a philosopher who takes a fork holds only smaller ones. `exists_ready` follows from the
last point: a philosopher who does not eat can go on, or somebody who holds a fork can.

The second part carries this over to an implementation. `Implements S R` says that the calls
and steps of `S` are those of the locks under the gluing relation `R`, as long as the locks are
used with `Usage`. `Live` says that a call that the locks would serve is not stuck.
`Implements.serves` puts the parts together.
-/

set_option autoImplicit false

namespace ZephyrRust.Philosophers

open ZephyrRust.Lib (System LockOrder)

variable {σ α : Type}

/-! ## The forks -/

/-- Fork `i` is one of the two of philosopher `n`. -/
def Uses (n : Phil) (i : Fork) : Prop := i = (forks n).1 ∨ i = (forks n).2

instance (n : Phil) (i : Fork) : Decidable (Uses n i) := by unfold Uses; infer_instance

/-- Each philosopher takes the smaller fork first. -/
theorem forks_lt (n : Phil) : (forks n).1 < (forks n).2 := by
  revert n
  decide

/-- A fork has at most two users. -/
theorem users_le_two {i : Fork} {n m k : Phil} (hn : Uses n i) (hm : Uses m i) (hk : Uses k i) :
    n = m ∨ n = k ∨ m = k := by
  revert i n m k
  decide

/-! ## The philosophers over the locks -/

/-- The forks that philosopher `n` holds at the place `p`, where `pending` says whether his call
has not taken effect. -/
def held (n : Phil) (p : Place) (pending : Bool) : List Fork :=
  match p with
  | .takeFirst => if pending then [] else [(forks n).1]
  | .takeSecond => if pending then [(forks n).1] else [(forks n).1, (forks n).2]
  | .eating => [(forks n).1, (forks n).2]
  | .releaseSecond => if pending then [(forks n).1, (forks n).2] else [(forks n).1]
  | .releaseFirst => if pending then [(forks n).1] else []
  | .hungry | .thinking => []

/-- The call that philosopher `n` makes at the place `p`. -/
def Place.op (n : Phil) : Place → Option ForkOp
  | .takeFirst => some (.take (forks n).1)
  | .takeSecond => some (.take (forks n).2)
  | .releaseSecond => some (.release (forks n).2)
  | .releaseFirst => some (.release (forks n).1)
  | .hungry | .eating | .thinking => none

/-- The philosophers hold the forks of their places, and nobody else holds a fork. -/
structure Seated (t : Dinner Locks) : Prop where
  op : ∀ n op, t.sync.call n = some op → (t.place n).op n = some op
  holder : ∀ n i, t.sync.holder i = some n ↔
    i ∈ held n (t.place n) (t.sync.call n).isSome

/-- Philosopher `n` goes on from a place where no call of his is pending. -/
theorem Seated.move {t : Dinner Locks} {n : Phil} {p : Place} {c : Option ForkOp}
    (stats : Stats) (h : Seated t) (hrest : t.sync.call n = none)
    (hop : ∀ op, c = some op → p.op n = some op)
    (hheld : held n p c.isSome = held n (t.place n) false) :
    Seated
      { sync := { t.sync with call := Function.update t.sync.call n c }
        place := Function.update t.place n p
        stats := stats } where
  op m op hm := by
    by_cases hmn : m = n
    · subst hmn
      simp only [Function.update_self] at hm ⊢
      exact hop op hm
    · simp only [Function.update_of_ne hmn] at hm ⊢
      exact h.op m op hm
  holder m i := by
    by_cases hmn : m = n
    · subst hmn
      have hm := h.holder m i
      rw [hrest] at hm
      simp only [Function.update_self]
      rw [hheld]
      exact hm
    · simp only [Function.update_of_ne hmn]
      exact h.holder m i

/-- A `take` adds its fork to those that are held. -/
theorem held_of_take {n : Phil} {p : Place} {i : Fork} (h : p.op n = some (.take i)) :
    held n p false = held n p true ++ [i] := by
  cases p with
  | takeFirst | takeSecond =>
    cases h
    rfl
  | hungry | eating | releaseSecond | releaseFirst | thinking => cases h

/-- A `release` takes its fork from those that are held. -/
theorem held_of_release {n : Phil} {p : Place} {i : Fork} (h : p.op n = some (.release i)) :
    held n p true = held n p false ++ [i] ∧ i ∉ held n p false := by
  cases p with
  | releaseSecond =>
    cases h
    exact ⟨rfl, fun hmem => (forks_lt n).ne' (List.mem_singleton.mp hmem)⟩
  | releaseFirst =>
    cases h
    exact ⟨rfl, List.not_mem_nil⟩
  | hungry | takeFirst | takeSecond | eating | thinking => cases h

/-- A call that takes effect is a `take` of a free fork, or a `release`. -/
theorem Locks.serve_cases {l l' : Locks} {n : Phil} (h : l.serve n = some l') :
    (∃ i, l.call n = some (.take i) ∧ l.holder i = none ∧
      l' = ⟨Function.update l.holder i (some n), Function.update l.call n none⟩) ∨
    ∃ i, l.call n = some (.release i) ∧
      l' = ⟨Function.update l.holder i none, Function.update l.call n none⟩ := by
  unfold Locks.serve at h
  split at h
  · rename_i i hc
    split at h
    · rename_i hi
      exact Or.inl ⟨i, hc, hi, (Option.some.inj h).symm⟩
    · cases h
  · rename_i i hc
    exact Or.inr ⟨i, hc, (Option.some.inj h).symm⟩
  · cases h

@[simp] theorem call_locks (l : Locks) (n : Phil) (op : ForkOp) :
    locks.call l n op = { l with call := Function.update l.call n (some op) } := rfl

/-- A `take` of a free fork can take effect. -/
theorem Locks.serve_take {l : Locks} {n : Phil} {i : Fork} (hc : l.call n = some (.take i))
    (hi : l.holder i = none) :
    l.serve n = some ⟨Function.update l.holder i (some n), Function.update l.call n none⟩ := by
  simp only [Locks.serve, hc, if_pos hi]

/-- A `release` can take effect. -/
theorem Locks.serve_release {l : Locks} {n : Phil} {i : Fork}
    (hc : l.call n = some (.release i)) :
    l.serve n = some ⟨Function.update l.holder i none, Function.update l.call n none⟩ := by
  simp only [Locks.serve, hc]

/-- The call of philosopher `n` takes effect. -/
theorem Seated.serve {t : Dinner Locks} {n : Phil} {l : Locks} (h : Seated t)
    (hl : t.sync.serve n = some l) : Seated { t with sync := l } := by
  have hop : ∀ m op, Function.update t.sync.call n none m = some op →
      (t.place m).op m = some op := by
    intro m op hm
    by_cases hmn : m = n
    · subst hmn
      rw [Function.update_self] at hm
      cases hm
    · rw [Function.update_of_ne hmn] at hm
      exact h.op m op hm
  obtain ⟨i, hc, hi, rfl⟩ | ⟨i, hc, rfl⟩ := Locks.serve_cases hl
  · have hadd := held_of_take (h.op n _ hc)
    refine ⟨hop, fun m j => ?_⟩
    by_cases hmn : m = n
    · subst hmn
      have hm := h.holder m j
      rw [hc] at hm
      by_cases hj : j = i
      · subst hj
        simp [hadd]
      · simp only [Function.update_self, Function.update_of_ne hj]
        simpa [hadd, hj] using hm
    · have hm := h.holder m j
      by_cases hj : j = i
      · subst hj
        simp only [Function.update_self, Function.update_of_ne hmn]
        rw [hi] at hm
        simpa [Ne.symm hmn] using hm
      · simpa only [Function.update_of_ne hj, Function.update_of_ne hmn] using hm
  · obtain ⟨hsub, hnot⟩ := held_of_release (h.op n _ hc)
    have hown : t.sync.holder i = some n := by
      rw [h.holder, hc]
      simp [hsub]
    refine ⟨hop, fun m j => ?_⟩
    have hm := h.holder m j
    by_cases hj : j = i
    · subst hj
      by_cases hmn : m = n
      · subst hmn
        simpa using hnot
      · simp only [Function.update_self, Function.update_of_ne hmn]
        rw [hown] at hm
        simpa [Ne.symm hmn] using hm
    · by_cases hmn : m = n
      · subst hmn
        rw [hc] at hm
        simp only [Function.update_self, Function.update_of_ne hj]
        simpa [hsub, hj] using hm
      · simpa only [Function.update_of_ne hj, Function.update_of_ne hmn] using hm

/-- The place after `p` in the loop. -/
def Place.next : Place → Place
  | .hungry => .takeFirst
  | .takeFirst => .takeSecond
  | .takeSecond => .eating
  | .eating => .releaseSecond
  | .releaseSecond => .releaseFirst
  | .releaseFirst => .thinking
  | .thinking => .hungry

/-- To go on to the next place changes none of the forks that are held. -/
theorem held_next (n : Phil) (p : Place) : held n p.next (p.next.op n).isSome = held n p false := by
  cases p <;> rfl

/-- Philosopher `n` performs a statement: he was at rest, goes on to the next place and makes the
call of that place, if there is one. -/
theorem Dinner.phil_eq_some {S : ForkSync σ α} {s s' : Dinner σ} {n : Phil} {uptime : Nat}
    (h : s.phil S n uptime = some s') :
    S.atRest s.sync n ∧ s'.place = Function.update s.place n (s.place n).next ∧
      s'.sync = ((s.place n).next.op n).elim s.sync (S.call s.sync n) := by
  unfold Dinner.phil at h
  split at h
  · rename_i hrest
    refine ⟨hrest, ?_⟩
    cases hp : s.place n <;> rw [hp] at h <;> cases h <;> exact ⟨rfl, rfl⟩
  · cases h

/-- A philosopher at rest can perform a statement. -/
theorem Dinner.phil_isSome {S : ForkSync σ α} {s : Dinner σ} {n : Phil} (uptime : Nat)
    (h : S.atRest s.sync n) : ∃ s', s.phil S n uptime = some s' := by
  unfold Dinner.phil
  rw [if_pos h]
  cases s.place n <;> exact ⟨_, rfl⟩

/-- `Seated` holds in every run over the locks. -/
theorem seated {t : Dinner Locks} (ht : (dine locks).Reachable t) : Seated t := by
  refine ht.invariant ⟨?_, fun n i => ?_⟩ fun s a s' hs hstep => ?_
  · intro n op h
    cases h
  · simp [dine, locks, held]
  · cases a with
    | sync n =>
      obtain ⟨l, hl, rfl⟩ := Option.map_eq_some_iff.mp hstep
      exact hs.serve hl
    | phil n uptime =>
      obtain ⟨hrest, hplace, hsync⟩ := Dinner.phil_eq_some hstep
      have hnone : s.sync.call n = none := Option.isNone_iff_eq_none.mp hrest
      have hmove := hs.move s'.stats hnone (fun op h => h) (held_next n (s.place n))
      rw [← hplace] at hmove
      have heq : s'.sync = { s.sync with
          call := Function.update s.sync.call n ((s.place n).next.op n) } := by
        rw [hsync]
        cases (s.place n).next.op n with
        | some op => rfl
        | none =>
          rw [Option.elim_none, ← hnone, Function.update_eq_self]
      rw [← heq] at hmove
      exact hmove

/-! ## The discipline -/

/-- How the philosophers use the locks. -/
structure Usage (l : Locks) : Prop where
  /-- A philosopher who takes a fork holds only smaller ones. -/
  takes : ∀ n i j, l.call n = some (.take i) → l.holder j = some n → j < i
  /-- Only the holder releases a fork. -/
  releases : ∀ n i, l.call n = some (.release i) → l.holder i = some n
  /-- A philosopher takes his own forks. -/
  users : ∀ n i, l.call n = some (.take i) → Uses n i
  /-- A philosopher holds his own forks. -/
  owns : ∀ n i, l.holder i = some n → Uses n i

theorem uses_of_held {n : Phil} {p : Place} {pending : Bool} {i : Fork}
    (h : i ∈ held n p pending) : Uses n i := by
  cases p <;> cases pending <;> simp [held] at h <;> simp [Uses, h]

theorem Seated.usage {t : Dinner Locks} (h : Seated t) : Usage t.sync where
  takes n i j hc hj := by
    have hop := h.op n _ hc
    rw [h.holder, hc] at hj
    cases hp : t.place n with
    | takeFirst =>
      rw [hp] at hj
      cases hj
    | takeSecond =>
      rw [hp] at hop hj
      cases hop
      cases List.mem_singleton.mp hj
      exact forks_lt n
    | hungry | eating | releaseSecond | releaseFirst | thinking =>
      rw [hp] at hop
      cases hop
  releases n i hc := by
    rw [h.holder, hc, Option.isSome_some, (held_of_release (h.op n _ hc)).1]
    exact List.mem_append_right _ List.mem_cons_self
  users n i hc := by
    have hi : i ∈ held n (t.place n) false := by
      rw [held_of_take (h.op n _ hc)]
      exact List.mem_append_right _ List.mem_cons_self
    exact uses_of_held hi
  owns n i hi := uses_of_held ((h.holder n i).mp hi)

/-- What philosopher `q` has to do before `n` eats: `n` himself goes on to his meal, and the
others finish theirs, if they have begun to take forks. -/
def rank (n q : Phil) (p : Place) : Nat :=
  if q = n then
    match p with
    | .eating => 0
    | .takeSecond => 1
    | .takeFirst => 2
    | .hungry => 3
    | .thinking => 4
    | .releaseFirst => 5
    | .releaseSecond => 6
  else
    match p with
    | .hungry | .thinking => 0
    | .releaseFirst => 1
    | .releaseSecond => 2
    | .eating => 3
    | .takeSecond => 4
    | .takeFirst => 5

/-- Each statement leaves less to do. -/
theorem rank_next {n q : Phil} {p : Place} (h : 0 < rank n q p) :
    rank n q p.next < rank n q p := by
  unfold rank at h ⊢
  split at h
  · cases p <;> simp_all [Place.next]
  · cases p <;> simp_all [Place.next]

/-- The philosopher is not stuck at a held fork. -/
def Ready (l : Locks) (q : Phil) : Prop := ∀ i, l.call q = some (.take i) → l.holder i = none

/-- The fork that a philosopher waits for. -/
def Locks.waits (l : Locks) (q : Phil) : Option Fork :=
  match l.call q with
  | some (.take i) => some i
  | _ => none

theorem Locks.waits_eq_some {l : Locks} {q : Phil} {i : Fork} :
    l.waits q = some i ↔ l.call q = some (.take i) := by
  unfold Locks.waits
  split
  · rename_i j hj
    simp [hj]
  · rename_i hne
    constructor
    · intro h
      cases h
    · intro h
      exact absurd h (hne i)

/-- While philosopher `n` does not eat, somebody with something to do is not stuck. -/
theorem exists_ready {t : Dinner Locks} (h : Seated t) {n : Phil} (hn : t.place n ≠ .eating) :
    ∃ q, 0 < rank n q (t.place q) ∧ Ready t.sync q := by
  have hself : 0 < rank n n (t.place n) := by
    unfold rank
    rw [if_pos rfl]
    cases hp : t.place n <;> simp_all
  by_cases hready : Ready t.sync n
  · exact ⟨n, hself, hready⟩
  · -- He waits for a fork, and so there is a holder who waits for no held fork.
    simp only [Ready, not_forall] at hready
    obtain ⟨i, -, hi⟩ := hready
    obtain ⟨p, hp⟩ := Option.ne_none_iff_exists'.mp hi
    have horder : LockOrder t.sync.holder t.sync.waits :=
      fun q r r' hr hr' => h.usage.takes q r r' (Locks.waits_eq_some.mp hr) hr'
    obtain ⟨q, r, hr, hfree⟩ := horder.exists_unblocked hp
    refine ⟨q, ?_, fun i hi => hfree i (Locks.waits_eq_some.mpr hi)⟩
    by_cases hqn : q = n
    · rw [hqn]
      exact hself
    · -- A holder is not hungry and does not think.
      unfold rank
      rw [if_neg hqn]
      have hmem := (h.holder q r).mp hr
      cases hq : t.place q with
      | hungry | thinking =>
        rw [hq] at hmem
        cases hmem
      | takeFirst | takeSecond | eating | releaseSecond | releaseFirst => exact Nat.succ_pos _

/-! ## Implementations -/

/-- The steps inside the calls of a `ForkSync`. -/
def ForkSync.system (S : ForkSync σ α) : System σ α where
  init := S.init
  step := S.step

/-- The calls of `S` are those of the locks under the gluing relation `R`, when the locks are
used with `Usage`. -/
structure Implements (S : ForkSync σ α) (R : σ → Locks → Prop) : Prop where
  init : R S.init locks.init
  rest : ∀ x l n, R x l → S.atRest x n → l.call n = none
  call : ∀ x l n op, Usage (locks.call l n op) → R x l → S.atRest x n →
    R (S.call x n op) (locks.call l n op)
  step : ∀ x l a x', Usage l → R x l → S.step x a = some x' →
    ∃ l', locks.system.Later l l' ∧ R x' l'

/-- A call that the locks would serve is not stuck: some action that satisfies `P` lowers the
measure `μ`. A new call adds at most `w` to it. -/
structure Live (S : ForkSync σ α) (R : σ → Locks → Prop) (P : α → Prop) (μ : σ → Nat)
    (w : Nat) : Prop where
  call : ∀ x l n op, R x l → S.atRest x n → μ (S.call x n op) ≤ μ x + w
  progress : ∀ x l n, Usage l → R x l → S.atRest x n = false → Ready l n →
    ∃ a x', P a ∧ S.step x a = some x' ∧ μ x' < μ x

/-- An action of the philosophers, or a step of the `ForkSync` that satisfies `P`. -/
def Act.Allowed (P : α → Prop) : Act α → Prop
  | .phil _ _ => True
  | .sync a => P a

/-- What the philosophers get from the `ForkSync` `S`. -/
structure Serves (S : ForkSync σ α) (P : α → Prop) (panicked : σ → Prop) : Prop where
  /-- No two philosophers have the same fork. -/
  exclusive : ∀ s, (dine S).Reachable s → ∀ n m i,
    i ∈ owned n (s.place n) (S.atRest s.sync n) →
    i ∈ owned m (s.place m) (S.atRest s.sync m) → n = m
  /-- Nothing in the implementation panics. -/
  noPanic : ∀ s, (dine S).Reachable s → ¬panicked s.sync
  /-- Every philosopher can still get to eat. -/
  eats : ∀ s, (dine S).Reachable s → ∀ n,
    ∃ s', (dine S).LaterBy (Act.Allowed P) s s' ∧ s'.place n = .eating

/-- Steps inside the calls are steps of the dinner. -/
theorem later_sync {S : ForkSync σ α} {x x' : σ} (h : S.system.Later x x') (place : Phil → Place)
    (stats : Stats) : (dine S).Later ⟨x, place, stats⟩ ⟨x', place, stats⟩ := by
  induction h with
  | refl => exact .refl
  | tail _ hstep ih =>
    obtain ⟨a, ha⟩ := hstep
    exact ih.tail ⟨.sync a, Option.map_eq_some_iff.mpr ⟨_, ha, rfl⟩⟩

/-- A sum over the philosophers after one of them has moved. -/
theorem sum_le_add {f g : Phil → Nat} {n : Phil} {w : Nat} (hother : ∀ q, q ≠ n → f q = g q)
    (hn : f n ≤ g n + w) : ∑ q, f q ≤ (∑ q, g q) + w := by
  have hrest : ∑ q ∈ Finset.univ.erase n, f q = ∑ q ∈ Finset.univ.erase n, g q :=
    Finset.sum_congr rfl fun q hq => hother q (Finset.ne_of_mem_erase hq)
  rw [← Finset.add_sum_erase _ f (Finset.mem_univ n), hrest,
    ← Finset.add_sum_erase _ g (Finset.mem_univ n)]
  omega

theorem sum_lt {f g : Phil → Nat} {n : Phil} (hother : ∀ q, q ≠ n → f q ≤ g q)
    (hn : f n < g n) : ∑ q, f q < ∑ q, g q := by
  refine Finset.sum_lt_sum (fun q _ => ?_) ⟨n, Finset.mem_univ n, hn⟩
  by_cases hq : q = n
  · rw [hq]
    exact hn.le
  · exact hother q hq

/-- Each of the others gains at most `c`, and philosopher `n` loses more than all of them gain. -/
theorem sum_lt_of_drop {f g : Phil → Nat} {n : Phil} {c : Nat}
    (hother : ∀ q, q ≠ n → f q ≤ g q + c) (hn : f n + numPhil * c < g n) :
    ∑ q, f q < ∑ q, g q := by
  have hrest := Finset.sum_le_sum fun q (hq : q ∈ Finset.univ.erase n) =>
    hother q (Finset.ne_of_mem_erase hq)
  have hconst : ∑ q ∈ Finset.univ.erase n, c ≤ numPhil * c := by
    rw [Finset.sum_const_nat fun _ _ => rfl]
    refine Nat.mul_le_mul_right c ((Finset.card_le_univ _).trans ?_)
    rw [Fintype.card_fin]
  rw [Finset.sum_add_distrib] at hrest
  rw [← Finset.add_sum_erase _ f (Finset.mem_univ n),
    ← Finset.add_sum_erase _ g (Finset.mem_univ n)]
  omega

theorem sum_update {β : Type} (f : β → Nat) (g : Phil → β) (n : Phil) (b : β) :
    (∑ q, f (Function.update g n b q)) + f (g n) = (∑ q, f (g q)) + f b := by
  have hrest : ∑ q ∈ Finset.univ.erase n, f (Function.update g n b q) =
      ∑ q ∈ Finset.univ.erase n, f (g q) :=
    Finset.sum_congr rfl fun q hq => by
      rw [Function.update_of_ne (Finset.ne_of_mem_erase hq)]
  rw [← Finset.add_sum_erase _ _ (Finset.mem_univ n), Function.update_self, hrest,
    ← Finset.add_sum_erase _ (fun q => f (g q)) (Finset.mem_univ n)]
  omega

theorem sum_update_lt {β : Type} {f : β → Nat} {g : Phil → β} {n : Phil} {b : β}
    (h : f b < f (g n)) : ∑ q, f (Function.update g n b q) < ∑ q, f (g q) := by
  have hsum := sum_update f g n b
  omega

theorem sum_update_le {β : Type} {f : β → Nat} {g : Phil → β} {n : Phil} {b : β} {w : Nat}
    (h : f b ≤ w) : ∑ q, f (Function.update g n b q) ≤ (∑ q, f (g q)) + w := by
  have hsum := sum_update f g n b
  omega

namespace Implements

variable {S : ForkSync σ α} {R : σ → Locks → Prop}

/-- The philosophers over `S` refine the philosophers over the locks. -/
theorem refines (h : Implements S R) :
    System.Refines (dine S) (dine locks) fun s t => t.place = s.place ∧ R s.sync t.sync where
  init := ⟨rfl, h.init⟩
  step := by
    intro s t a s' ht hR hstep
    obtain ⟨hplace, hglue⟩ := hR
    cases a with
    | sync a =>
      obtain ⟨x, hx, rfl⟩ := Option.map_eq_some_iff.mp hstep
      obtain ⟨l, hl, hglue'⟩ := h.step _ _ a x (seated ht).usage hglue hx
      exact ⟨⟨l, t.place, t.stats⟩, later_sync hl t.place t.stats, hplace, hglue'⟩
    | phil n uptime =>
      obtain ⟨hrest, hplace', hsync'⟩ := Dinner.phil_eq_some hstep
      have hnone := h.rest _ _ n hglue hrest
      have hrest_t : locks.atRest t.sync n := Option.isNone_iff_eq_none.mpr hnone
      obtain ⟨t', ht'⟩ := Dinner.phil_isSome uptime hrest_t
      have hstep' : (dine locks).step t (.phil n uptime) = some t' := ht'
      have husage := (seated (ht.next hstep')).usage
      obtain ⟨-, hplace_t, hsync_t⟩ := Dinner.phil_eq_some ht'
      refine ⟨t', .single hstep', by rw [hplace_t, hplace', hplace], ?_⟩
      rw [hplace] at hsync_t
      cases hop : (s.place n).next.op n with
      | none =>
        rw [hop] at hsync' hsync_t
        rw [hsync', hsync_t]
        exact hglue
      | some op =>
        rw [hop] at hsync' hsync_t
        rw [hsync_t] at husage ⊢
        rw [hsync']
        exact h.call _ _ n op husage hglue hrest

/-- What a philosopher has, he holds as a lock. -/
theorem mem_held (h : Implements S R) {s : Dinner σ} {t : Dinner Locks} {n : Phil} {i : Fork}
    (hplace : t.place = s.place) (hglue : R s.sync t.sync)
    (hi : i ∈ owned n (s.place n) (S.atRest s.sync n)) :
    i ∈ held n (t.place n) (t.sync.call n).isSome := by
  rw [hplace]
  cases hrest : S.atRest s.sync n with
  | true =>
    rw [hrest] at hi
    rw [h.rest _ _ n hglue hrest]
    cases hp : s.place n <;> rw [hp] at hi <;> exact hi
  | false =>
    rw [hrest] at hi
    cases hp : s.place n <;> rw [hp] at hi <;> cases (t.sync.call n).isSome <;>
      simp_all [owned, held]

variable {P : α → Prop} {μ : σ → Nat} {w : Nat} {panicked : σ → Prop}

/-- The way to the meal of philosopher `n`: each statement that is left weighs more than a
call. -/
def work (μ : σ → Nat) (w : Nat) (n : Phil) (s : Dinner σ) : Nat :=
  (∑ q, rank n q (s.place q)) * (w + 1) + μ s.sync

/-- A philosopher with something to do performs a statement. -/
theorem work_phil (hlive : Live S R P μ w) {s s' : Dinner σ} {l : Locks} {n q : Phil}
    {uptime : Nat} (hglue : R s.sync l) (hrank : 0 < rank n q (s.place q))
    (hstep : s.phil S q uptime = some s') : work μ w n s' < work μ w n s := by
  obtain ⟨hrest, hplace, hsync⟩ := Dinner.phil_eq_some hstep
  have hsum : (∑ p, rank n p (s'.place p)) < ∑ p, rank n p (s.place p) := by
    rw [hplace]
    refine sum_lt (n := q) (fun p hp => by rw [Function.update_of_ne hp]) ?_
    rw [Function.update_self]
    exact rank_next hrank
  have hμ : μ s'.sync ≤ μ s.sync + w := by
    rw [hsync]
    cases (s.place q).next.op q with
    | none => exact Nat.le_add_right _ _
    | some op => exact hlive.call _ _ q op hglue hrest
  have hmul := Nat.mul_le_mul_right (w + 1) (Nat.succ_le_of_lt hsum)
  rw [Nat.succ_mul] at hmul
  unfold work
  omega

/-- An implementation of the locks that is not stuck serves the philosophers. -/
theorem serves (h : Implements S R) (hlive : Live S R P μ w)
    (hpanic : ∀ x l, R x l → ¬panicked x) : Serves S P panicked where
  exclusive s hs n m i hn hm := by
    obtain ⟨t, ht, hplace, hglue⟩ := h.refines.abstract hs
    have hseat := seated ht
    have hn' := (hseat.holder n i).mpr (h.mem_held hplace hglue hn)
    have hm' := (hseat.holder m i).mpr (h.mem_held hplace hglue hm)
    exact Option.some.inj (hn'.symm.trans hm')
  noPanic s hs := by
    obtain ⟨t, -, -, hglue⟩ := h.refines.abstract hs
    exact hpanic _ _ hglue
  eats s hs n := by
    refine hs.laterBy_of_measure (fun s => s.place n = .eating) (work μ w n) ?_
    intro s hs hn
    obtain ⟨t, ht, hplace, hglue⟩ := h.refines.abstract hs
    rw [← hplace] at hn
    obtain ⟨q, hrank, hready⟩ := exists_ready (seated ht) hn
    rw [hplace] at hrank
    cases hrest : S.atRest s.sync q with
    | true =>
      obtain ⟨s', hs'⟩ := Dinner.phil_isSome 0 hrest
      exact ⟨.phil q 0, s', trivial, hs', work_phil hlive hglue hrank hs'⟩
    | false =>
      obtain ⟨a, x, ha, hx, hlt⟩ :=
        hlive.progress _ _ q (seated ht).usage hglue hrest hready
      refine ⟨.sync a, { s with sync := x }, ha, Option.map_eq_some_iff.mpr ⟨x, hx, rfl⟩, ?_⟩
      exact Nat.add_lt_add_left hlt _

end Implements

end ZephyrRust.Philosophers
