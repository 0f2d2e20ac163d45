import ZephyrRust.Philosophers.CondSync
import ZephyrRust.Proofs.Mutex.Attempt
import ZephyrRust.Proofs.Philosophers

/-!
# `ZephyrRust.Proofs.Philosophers.CondSync`: the monitor is six locks

The flag of a fork says whether the fork has a holder. A `take` takes effect when it sets the
flag, and a `release` when it clears it.

`At` says where in the calls of the mutex and the condition variable a philosopher can be at each
statement, and whether he has the guard. With the invariant of the mutex it follows that only
one of them is between the lock and the drop of the guard. `Sees` is what a philosopher knows of
the flag of his fork. It has the reason why no wake-up is lost: a philosopher waits while the
flag is set, or else the one who has cleared it is still to wake everybody.
-/

set_option autoImplicit false

namespace ZephyrRust.Philosophers

open ZephyrRust.Sync (St Inv Outcome)

/-- The place of a philosopher in the mutex and the condition variable. -/
abbrev SyncPc := Sync.Pc Unit Unit

namespace CondPc

/-- The call that has not taken effect. -/
def op : CondPc → Option ForkOp
  | .take index | .test index | .set index => some (.take index)
  | .release index | .clear index => some (.release index)
  | .atRest | .notify | .drop | .dropping => none

/-- The places of the calls that a philosopher makes at a statement, and the number of guards
that he has there. -/
def At (p : CondPc) (q : SyncPc) (guards : Nat) : Prop :=
  match p with
  | .atRest | .take _ | .release _ => guards = 0 ∧ (q = .idle ∨ q = .returned .unit)
  | .test _ =>
    match q with
    | .inner .lock _ | .swap .lock _ | .waitStore _ _ | .waitBlock _ _ | .blocked _ _
    | .reacquire _ | .waitSet _ => guards = 0
    | .returned (.guard _) => guards = 1
    | _ => False
  | .clear _ =>
    match q with
    | .inner .lock _ | .swap .lock _ => guards = 0
    | .returned (.guard _) => guards = 1
    | _ => False
  | .set _ | .notify | .drop => guards = 1 ∧ q = .returned (.guard ())
  | .dropping => guards = 0 ∧ (q = .dropStore () ∨ q = .dropUnlock () ∨ q = .returned .unit)

/-- What a philosopher knows of the flags, where `notifying` says that somebody is about to wake
everybody. -/
def Sees (p : CondPc) (q : SyncPc) (flags : Fork → Bool) (notifying : Prop) : Prop :=
  match p with
  | .set i => flags i = false
  | .test i =>
    match q with
    | .waitStore _ _ | .waitBlock _ _ => flags i = true
    | .blocked _ _ => flags i = true ∨ notifying
    | _ => True
  | _ => True

end CondPc

namespace CondSync

/-- The monitor, as the locks have it. -/
structure Glue (x : CondSync) (l : Locks) : Prop where
  inv : Inv x.sync
  place : ∀ n, (x.pc n).At (x.sync.pc n) (x.sync.guards n ())
  sees : ∀ n, (x.pc n).Sees (x.sync.pc n) x.flags (∃ m, x.pc m = .notify)
  waiters : ∀ n, n ∈ x.sync.waiters () ↔ x.sync.pc n = .blocked () ()
  flags : ∀ i, x.flags i = true ↔ l.holder i ≠ none
  op : ∀ n, l.call n = (x.pc n).op

variable {x : CondSync} {l : Locks} {n m : Phil}

/-! ### One operation inside a call -/

/-- What the next operation of `lock`, `wait` or `drop` does to the place of a philosopher. -/
inductive Advance : SyncPc → SyncPc → Prop
  | lock : Advance (.inner .lock ()) (.swap .lock ())
  | accept : Advance (.swap .lock ()) (.returned (.guard ()))
  | dropStore : Advance (.dropStore ()) (.dropUnlock ())
  | dropUnlock : Advance (.dropUnlock ()) (.returned .unit)
  | waitStore : Advance (.waitStore () ()) (.waitBlock () ())
  | waitBlock : Advance (.waitBlock () ()) (.blocked () ())
  | reacquire : Advance (.reacquire ()) (.waitSet ())
  | waitSet : Advance (.waitSet ()) (.returned (.guard ()))

/-- What the next operation of philosopher `n` does. -/
structure Moves (n : Phil) (s s' : St Phil Unit Unit (Fork → Bool)) : Prop where
  advance : Advance (s.pc n) (s'.pc n)
  guards : s'.guards n () = if s'.pc n = .returned (.guard ()) then 1 else 0
  other : ∀ m, m ≠ n → s'.pc m = s.pc m ∧ s'.guards m () = s.guards m ()
  data : (s'.mutex ()).data = (s.mutex ()).data
  waiters : ∀ m, m ∈ s'.waiters () ↔ m ∈ s.waiters () ∨ m = n ∧ s'.pc n = .blocked () ()

/-- A philosopher without a guard finds the flag of the mutex clear, so his attempt is not
rejected. -/
theorem Glue.accepts (h : Glue x l) (hpc : x.sync.pc n = .swap .lock ())
    (hg : x.sync.guards n () = 0) : (x.sync.mutex ()).locked = false := by
  have hview : x.sync.view n () = ⟨0, some .swap⟩ := by
    rw [St.view, hg, hpc]
    rfl
  obtain ⟨-, -, hflag⟩ := (h.inv ()).in_phase hview (by decide)
  rcases hflag with ⟨-, hf⟩ | ⟨hg, -⟩
  · exact hf
  · cases hg

/-- A philosopher inside a call has no guard of his own, and he does not call `try_lock`. -/
theorem guards_of_at {p : CondPc} {q : SyncPc} {g : Nat} (h : p.At q g)
    (hq : q ≠ .returned (.guard ())) : g = 0 := by
  cases p <;> cases q <;> simp_all [CondPc.At] <;> split at h <;> simp_all

theorem lock_of_at {p : CondPc} {q : SyncPc} {g : Nat} {c : Sync.Call} (h : p.At q g)
    (hq : q = .inner c () ∨ q = .swap c ()) : c = .lock := by
  rcases hq with rfl | rfl <;> cases c <;> cases p <;> simp_all [CondPc.At]

/-- The next operation of a call of `CondSync`. -/
theorem Glue.moves (h : Glue x l) {s' : St Phil Unit Unit (Fork → Bool)}
    (hs : x.sync.next n = some s') : Moves n x.sync s' := by
  have hat := h.place n
  cases hpc : x.sync.pc n with
  | idle | blocked _ _ | returned _ | panicked _ => simp [St.next, hpc] at hs
  | undo c _ =>
    rw [hpc] at hat
    cases hp : x.pc n <;> simp_all [CondPc.At]
  | inner c _ =>
    obtain rfl := lock_of_at hat (.inl hpc)
    have hg := guards_of_at hat (by simp [hpc])
    simp only [St.next, hpc] at hs
    split at hs
    · cases hs
      refine ⟨?_, ?_, fun m hm => ⟨?_, rfl⟩, ?_, fun m => ?_⟩ <;> simp_all
      exact .lock
    · cases hs
  | swap c _ =>
    obtain rfl := lock_of_at hat (.inr hpc)
    have hg := guards_of_at hat (by simp [hpc])
    simp only [St.next, hpc, h.accepts hpc hg] at hs
    cases hs
    refine ⟨?_, ?_, fun m hm => ⟨?_, ?_⟩, ?_, fun m => ?_⟩ <;> simp_all
    exact .accept
  | dropStore _ =>
    have hg := guards_of_at hat (by simp [hpc])
    simp only [St.next, hpc] at hs
    cases hs
    refine ⟨?_, ?_, fun m hm => ⟨?_, rfl⟩, ?_, fun m => ?_⟩ <;> simp_all
    exact .dropStore
  | dropUnlock _ =>
    have hg := guards_of_at hat (by simp [hpc])
    have hb : (x.sync.pc n).phase = some ((), .release) := by rw [hpc]; rfl
    simp only [St.next, hpc] at hs
    split at hs
    · cases hs
      refine ⟨?_, ?_, fun m hm => ⟨?_, rfl⟩, ?_, fun m => ?_⟩ <;> simp_all
      exact .dropUnlock
    · exact absurd ‹_› (h.inv.unlock_ne_none hb (by decide))
  | waitStore _ _ =>
    have hg := guards_of_at hat (by simp [hpc])
    simp only [St.next, hpc] at hs
    cases hs
    refine ⟨?_, ?_, fun m hm => ⟨?_, rfl⟩, ?_, fun m => ?_⟩ <;> simp_all
    exact .waitStore
  | waitBlock _ _ =>
    have hg := guards_of_at hat (by simp [hpc])
    simp only [St.next, hpc] at hs
    cases hs
    refine ⟨?_, ?_, fun m hm => ⟨?_, rfl⟩, ?_, fun m => ?_⟩ <;> simp_all
    exact .waitBlock
  | reacquire _ =>
    have hg := guards_of_at hat (by simp [hpc])
    simp only [St.next, hpc] at hs
    split at hs
    · cases hs
      refine ⟨?_, ?_, fun m hm => ⟨?_, rfl⟩, ?_, fun m => ?_⟩ <;> simp_all
      exact .reacquire
    · cases hs
  | waitSet _ =>
    have hg := guards_of_at hat (by simp [hpc])
    simp only [St.next, hpc] at hs
    cases hs
    refine ⟨?_, ?_, fun m hm => ⟨?_, ?_⟩, ?_, fun m => ?_⟩ <;> simp_all
    exact .waitSet

/-! ### The steps keep the gluing relation -/

/-- A step of philosopher `n` to the statement `p`. What the others know has to stay true. -/
theorem Glue.move {l' : Locks} {s' : St Phil Unit Unit (Fork → Bool)} {p : CondPc} (h : Glue x l)
    (hinv : Inv s')
    (hother : ∀ m, m ≠ n → s'.pc m = x.sync.pc m ∧ s'.guards m () = x.sync.guards m ())
    (hplace : p.At (s'.pc n) (s'.guards n ()))
    (hsees : p.Sees (s'.pc n) (s'.mutex ()).data (∃ m, Function.update x.pc n p m = .notify))
    (hsees' : ∀ m, m ≠ n → (x.pc m).Sees (x.sync.pc m) x.flags (∃ m, x.pc m = .notify) →
      (x.pc m).Sees (x.sync.pc m) (s'.mutex ()).data (∃ m, Function.update x.pc n p m = .notify))
    (hwaiters : ∀ m, m ∈ s'.waiters () ↔ s'.pc m = .blocked () ())
    (hflags : ∀ i, (s'.mutex ()).data i = true ↔ l'.holder i ≠ none)
    (hcall : l'.call = Function.update l.call n p.op) :
    Glue (({ x with sync := s' } : CondSync).goto n p) l' where
  inv := hinv
  place m := by
    by_cases hm : m = n
    · subst hm
      simpa [goto] using hplace
    · simpa [goto, hm, (hother m hm).1, (hother m hm).2] using h.place m
  sees m := by
    by_cases hm : m = n
    · subst hm
      simpa [goto, CondSync.flags] using hsees
    · have hm' := hsees' m hm (h.sees m)
      simpa [goto, CondSync.flags, hm, (hother m hm).1] using hm'
  waiters := hwaiters
  flags := hflags
  op m := by
    rw [hcall]
    by_cases hm : m = n
    · subst hm
      simp [goto]
    · simpa [goto, hm] using h.op m

/-- What a philosopher knows stays true when the flags stay, and nobody gives up to notify. -/
theorem sees_mono {p : CondPc} {q : SyncPc} {flags : Fork → Bool} {c c' : Prop}
    (h : p.Sees q flags c) (hc : c → c') : p.Sees q flags c' := by
  cases p with
  | test i =>
    cases q with
    | blocked _ _ => exact h.imp_right hc
    | _ => exact h
  | _ => exact h

/-- Without a wait, what a philosopher knows is about the flags only. -/
theorem sees_of_not_blocked {p : CondPc} {q : SyncPc} {flags : Fork → Bool} {c c' : Prop}
    (h : p.Sees q flags c) (hq : q ≠ .blocked () ()) : p.Sees q flags c' := by
  cases p with
  | test i =>
    cases q with
    | blocked _ _ => exact absurd rfl hq
    | _ => exact h
  | _ => exact h

/-- Somebody who is about to notify stays so when another philosopher moves. -/
theorem notify_update {p : CondPc} (hn : x.pc n ≠ .notify) (h : ∃ m, x.pc m = .notify) :
    ∃ m, Function.update x.pc n p m = .notify := by
  obtain ⟨m, hm⟩ := h
  refine ⟨m, ?_⟩
  rw [Function.update_of_ne, hm]
  rintro rfl
  exact hn hm

/-- The next operation inside a call. -/
theorem Glue.next (h : Glue x l) {s' : St Phil Unit Unit (Fork → Bool)}
    (hs : x.sync.next n = some s') : Glue { x with sync := s' } l := by
  have hmv := h.moves hs
  have hinv : Inv s' := h.inv.steps (h.inv.of_next hs).effect
  have heq : ({ x with sync := s' } : CondSync)
      = ({ x with sync := s' } : CondSync).goto n (x.pc n) := by
    simp [goto]
  have hnotify : (∃ m, x.pc m = .notify) →
      ∃ m, Function.update x.pc n (x.pc n) m = .notify := by
    rw [Function.update_eq_self]
    exact id
  have hat := h.place n
  have hsees := h.sees n
  rw [heq]
  refine h.move hinv hmv.other ?_ ?_ (fun m _ hm => ?_) (fun m => ?_) (fun i => ?_) ?_
  · rw [hmv.guards]
    have hadv := hmv.advance
    generalize x.sync.pc n = q at hat hadv
    generalize s'.pc n = q' at hadv ⊢
    cases hadv <;> cases hp : x.pc n <;> simp_all [CondPc.At]
  · rw [Function.update_eq_self, hmv.data]
    have hadv := hmv.advance
    generalize x.sync.pc n = q at hat hadv hsees
    generalize s'.pc n = q' at hadv ⊢
    cases hadv <;> cases hp : x.pc n <;> simp_all [CondPc.At, CondPc.Sees, CondSync.flags]
  · rw [hmv.data]
    exact sees_mono hm hnotify
  · rw [hmv.waiters, h.waiters]
    by_cases hm : m = n
    · subst hm
      have hadv := hmv.advance
      simp only [true_and]
      refine or_iff_right fun hb => ?_
      rw [hb] at hadv
      cases hadv
    · rw [(hmv.other m hm).1]
      simp [hm]
  · rw [hmv.data]
    exact h.flags i
  · rw [← h.op, Function.update_eq_self]

/-- A philosopher who is blocked is at the condition of the loop. -/
theorem test_of_blocked {p : CondPc} {g : Nat} (h : p.At (.blocked () ()) g) :
    (∃ i, p = .test i) ∧ g = 0 := by
  cases p <;> simp_all [CondPc.At]

/-- Some of the waiting philosophers are woken. -/
theorem Glue.wake (h : Glue x l) (woken : List Phil)
    (hwoken : ∀ m ∈ woken, x.sync.pc m = .blocked () ()) :
    Glue { x with sync := x.sync.wakeAll () woken } l where
  inv := h.inv.steps (Sync.Steps.of_wakeAll () woken).effect
  place m := by
    have hm := h.place m
    by_cases hmem : m ∈ woken
    · rw [hwoken m hmem] at hm
      obtain ⟨⟨i, hp⟩, hg⟩ := test_of_blocked hm
      simp [St.wakeAll, hmem, hwoken m hmem, Sync.Pc.wake, hp, CondPc.At, hg]
    · simpa [St.wakeAll, hmem] using hm
  sees m := by
    have hm := h.sees m
    by_cases hmem : m ∈ woken
    · have hat := h.place m
      rw [hwoken m hmem] at hat
      obtain ⟨⟨i, hp⟩, -⟩ := test_of_blocked hat
      simp [St.wakeAll, hmem, hwoken m hmem, Sync.Pc.wake, hp, CondPc.Sees]
    · simpa [St.wakeAll, hmem, CondSync.flags] using hm
  waiters m := by
    by_cases hmem : m ∈ woken
    · simp [St.wakeAll, hmem, hwoken m hmem, Sync.Pc.wake]
    · simpa [St.wakeAll, hmem] using h.waiters m
  flags := h.flags
  op := h.op

/-- Somebody who has a guard is alone between the lock and the unlock. -/
theorem Glue.alone (h : Glue x l) (hg : 0 < x.sync.guards n ()) (hm : m ≠ n) :
    ¬x.sync.between m () := by
  have hn : (x.sync.mutex ()).inner.owner = some n := h.inv.owner_of_guards hg
  have hne : (x.sync.mutex ()).inner.owner ≠ some m := by
    rw [hn]
    exact fun heq => hm (Option.some.inj heq).symm
  exact (h.inv.other hne).1

/-- What another philosopher knows after a write of the flags: he is outside of the mutex, so
only the reason for a wait counts. -/
theorem Glue.sees_write (h : Glue x l) (hg : 0 < x.sync.guards n ()) (hm : m ≠ n)
    {flags : Fork → Bool} {c : Prop} (hreason : ∀ i, x.flags i = true ∨ (∃ m, x.pc m = .notify) →
      flags i = true ∨ c)
    (hsees : (x.pc m).Sees (x.sync.pc m) x.flags (∃ m, x.pc m = .notify)) :
    (x.pc m).Sees (x.sync.pc m) flags c := by
  have hout := h.alone hg hm
  have hat := h.place m
  cases hp : x.pc m with
  | set i =>
    rw [hp] at hat
    exact absurd (Or.inl (Nat.lt_of_lt_of_le (by simp [hat.1]) (Nat.le_add_right _ _))) hout
  | test i =>
    rw [hp] at hsees
    cases hq : x.sync.pc m with
    | waitStore _ _ | waitBlock _ _ =>
      exact absurd (Or.inl (by simp [St.activeGuards, hq, Sync.Pc.guard])) hout
    | blocked _ _ =>
      rw [hq] at hsees
      exact hreason i hsees
    | _ => trivial
  | _ => trivial

variable {i : Fork}

/-- A philosopher outside of the mutex calls `lock`. -/
theorem Glue.enter (h : Glue x l) {p : CondPc} {s' : St Phil Unit Unit (Fork → Bool)}
    (hp : p = .test i ∨ p = .clear i) (hcall : l.call n = p.op)
    (hg : x.sync.guards n () = 0) (hs : x.sync.call .lock n () = some s') :
    Glue (({ x with sync := s' } : CondSync).goto n p) l := by
  have hinv := h.inv.steps (h.inv.of_step
    (d := fun _ _ => false) (a := .call .lock n ()) hs).effect
  have hrest : x.sync.atRest n := by
    by_contra hno
    rw [St.call, if_neg hno] at hs
    cases hs
  rw [St.call, if_pos hrest] at hs
  cases hs
  have hnot : x.sync.pc n ≠ .blocked () () := by
    intro hb
    simp [St.atRest, hb] at hrest
  have hnn : x.pc n ≠ .notify := by
    intro hn
    have hat := h.place n
    simp [hn, CondPc.At, hg] at hat
  refine h.move hinv (fun m hm => ⟨by simp [hm], rfl⟩) ?_ ?_ (fun m hm hsees => ?_) (fun m => ?_)
    h.flags ?_
  · rcases hp with rfl | rfl <;> simp [CondPc.At, hg]
  · rcases hp with rfl | rfl <;> simp [CondPc.Sees]
  · exact sees_mono hsees (notify_update hnn)
  · by_cases hm : m = n
    · subst hm
      simpa using fun hmem => hnot ((h.waiters m).mp hmem)
    · simpa [hm] using h.waiters m
  · rw [← hcall, Function.update_eq_self]

/-- The guard of a philosopher goes to `wait` or to `drop`. -/
theorem Glue.give (h : Glue x l) {p : CondPc} {q : SyncPc} {s' : St Phil Unit Unit (Fork → Bool)}
    (hpc : x.sync.pc n = .returned (.guard ())) (hg : x.sync.guards n () = 1)
    (hcall : l.call n = p.op) (hat : p.At q 0) (hsees : p.Sees q x.flags False)
    (hq : q.phase = some ((), .store)) (hnn : x.pc n ≠ .notify)
    (hs : x.sync.give n () q = some s') :
    Glue (({ x with sync := s' } : CondSync).goto n p) l := by
  have hinv := h.inv.steps (Sync.Steps.of_give hq hs).effect
  have hnb : q ≠ .blocked () () := by
    rintro rfl
    cases hq
  rw [St.give, if_pos ⟨by simp [St.atRest, hpc], by omega⟩] at hs
  cases hs
  refine h.move hinv (fun m hm => ⟨by simp [hm], by simp [hm]⟩) ?_ ?_ (fun m hm hsees => ?_)
    (fun m => ?_) h.flags ?_
  · simpa [hg] using hat
  · simpa [CondSync.flags] using sees_mono hsees False.elim
  · exact sees_mono hsees (notify_update hnn)
  · by_cases hm : m = n
    · subst hm
      have hw := h.waiters m
      rw [hpc] at hw
      simpa [hnb] using hw
    · simpa [hm] using h.waiters m
  · rw [← hcall, Function.update_eq_self]

/-- A philosopher goes on without a change of the mutex. -/
theorem Glue.goto (h : Glue x l) {p : CondPc} (hcall : l.call n = p.op)
    (hat : p.At (x.sync.pc n) (x.sync.guards n ()))
    (hsees : p.Sees (x.sync.pc n) x.flags False) (hnn : x.pc n ≠ .notify) :
    Glue (x.goto n p) l := by
  refine h.move h.inv (fun m _ => ⟨rfl, rfl⟩) hat (sees_mono hsees False.elim)
    (fun m hm hsees => sees_mono hsees (notify_update hnn)) h.waiters h.flags ?_
  rw [← hcall, Function.update_eq_self]

/-- A philosopher with the guard writes the flag of fork `i`, and the call takes effect. -/
theorem Glue.write (h : Glue x l) {p : CondPc} {b : Bool} (holder : Option Phil)
    {s' : St Phil Unit Unit (Fork → Bool)}
    (hp : p = .drop ∧ b = true ∨ p = .notify ∧ b = false) (hnn : x.pc n ≠ .notify)
    (hb : b = holder.isSome) (hpc : x.sync.pc n = .returned (.guard ()))
    (hg : x.sync.guards n () = 1)
    (hs : x.sync.derefMut n () (Function.update x.flags i b) = some s') :
    Glue (({ x with sync := s' } : CondSync).goto n p)
      ⟨Function.update l.holder i holder, Function.update l.call n none⟩ := by
  have hinv := h.inv.steps (Sync.Steps.of_derefMut hs).effect
  rw [St.derefMut, if_pos ⟨by simp [St.atRest, hpc], by omega⟩] at hs
  cases hs
  refine h.move hinv (fun m hm => ⟨rfl, rfl⟩) ?_ ?_ (fun m hm hsees => ?_) (fun m => ?_)
    (fun j => ?_) ?_
  · rcases hp with ⟨rfl, -⟩ | ⟨rfl, -⟩ <;> simp [CondPc.At, hpc, hg]
  · rcases hp with ⟨rfl, -⟩ | ⟨rfl, -⟩ <;> trivial
  · refine h.sees_write (by omega) hm (fun j hj => ?_) hsees
    rcases hp with ⟨rfl, rfl⟩ | ⟨rfl, rfl⟩
    · refine hj.imp (fun hj => ?_) (notify_update hnn)
      by_cases hji : j = i
      · simp [hji]
      · simpa [hji] using hj
    · exact Or.inr ⟨n, Function.update_self n _ x.pc⟩
  · exact h.waiters m
  · by_cases hj : j = i
    · subst hj
      simp [hb, Option.isSome_iff_ne_none]
    · simpa [hj] using h.flags j
  · rcases hp with ⟨rfl, -⟩ | ⟨rfl, -⟩ <;> rfl

/-- Everybody is woken, and nobody waits then. -/
theorem Glue.notify (h : Glue x l) (hpc : x.pc n = .notify) :
    Glue (({ x with sync := x.sync.notifyAll () } : CondSync).goto n .drop) l := by
  have hwake := h.wake (x.sync.waiters ()) fun m hm => (h.waiters m).mp hm
  have hat := hwake.place n
  have hop := hwake.op n
  have hblocked : ∀ m, (x.sync.wakeAll () (x.sync.waiters ())).pc m ≠ .blocked () () := by
    intro m hm
    have hmem := (hwake.waiters m).mpr hm
    simp [St.wakeAll] at hmem
  rw [hpc] at hat hop
  have hcall : l.call n = CondPc.drop.op := hop
  refine hwake.move hwake.inv (fun m _ => ⟨rfl, rfl⟩) hat trivial
    (fun m _ hsees => sees_of_not_blocked hsees (hblocked m)) hwake.waiters hwake.flags ?_
  rw [← hcall, Function.update_eq_self]

/-- Philosopher `n` performs a statement of a method. The statements that write a flag are where
the calls take effect. -/
theorem Glue.statement {x' : CondSync} (h : Glue x l) (hs : x.statement n = some x') :
    ∃ l', locks.system.Later l l' ∧ Glue x' l' := by
  have hat := h.place n
  have hop := h.op n
  have hsees := h.sees n
  unfold CondSync.statement at hs
  split at hs <;> rename_i hp <;> rw [hp] at hat hop hsees
  · cases hs
  · rename_i i
    obtain ⟨s', hs', rfl⟩ := Option.map_eq_some_iff.mp hs
    exact ⟨l, .refl, h.enter (.inl rfl) hop hat.1 hs'⟩
  · rename_i i
    split at hs
    · rename_i hguard
      have hpc : x.sync.pc n = .returned (.guard ()) := of_decide_eq_true hguard
      rw [hpc] at hat
      split at hs
      · rename_i hflag
        obtain ⟨s', hs', rfl⟩ := Option.map_eq_some_iff.mp hs
        exact ⟨l, .refl,
          h.give (q := .waitStore () ()) hpc hat hop rfl hflag rfl (by simp [hp]) hs'⟩
      · rename_i hflag
        cases hs
        exact ⟨l, .refl, h.goto hop ⟨hat, hpc⟩ (by simpa [CondPc.Sees] using hflag)
          (by simp [hp])⟩
    · cases hs
  · rename_i i
    obtain ⟨s', hs', rfl⟩ := Option.map_eq_some_iff.mp hs
    -- The flag is clear, so the fork is free.
    have hfree : l.holder i = none := by
      by_contra hne
      have hflag : x.flags i = false := hsees
      rw [(h.flags i).mpr hne] at hflag
      cases hflag
    exact ⟨_, .single (Locks.serve_take hop hfree),
      h.write (some n) (.inl ⟨rfl, rfl⟩) (by simp [hp]) rfl hat.2 hat.1 hs'⟩
  · rename_i i
    obtain ⟨s', hs', rfl⟩ := Option.map_eq_some_iff.mp hs
    exact ⟨l, .refl, h.enter (.inr rfl) hop hat.1 hs'⟩
  · rename_i i
    split at hs
    · rename_i hguard
      have hpc : x.sync.pc n = .returned (.guard ()) := of_decide_eq_true hguard
      rw [hpc] at hat
      obtain ⟨s', hs', rfl⟩ := Option.map_eq_some_iff.mp hs
      exact ⟨_, .single (Locks.serve_release hop),
        h.write none (.inr ⟨rfl, rfl⟩) (by simp [hp]) rfl hpc hat hs'⟩
    · cases hs
  · cases hs
    exact ⟨l, .refl, h.notify hp⟩
  · obtain ⟨s', hs', rfl⟩ := Option.map_eq_some_iff.mp hs
    exact ⟨l, .refl, h.give hat.2 hat.1 hop ⟨rfl, .inl rfl⟩ trivial rfl (by simp [hp]) hs'⟩
  · split at hs
    · rename_i hpc
      cases hs
      exact ⟨l, .refl, h.goto hop ⟨hat.1, .inr hpc⟩ trivial (by simp [hp])⟩
    · cases hs

theorem implements : Implements condSync Glue where
  init := by
    refine ⟨fun m => ?_, fun n => ⟨rfl, .inl rfl⟩, fun n => trivial, fun n => ?_, fun i => ?_,
      fun n => rfl⟩
    · exact (Inv.of_reachable (d := fun _ _ => false) .start).1 m
    · simp [condSync, Sync.threads]
    · simp [condSync, Sync.threads, CondSync.flags, locks, Sync.Mutex.new]
  rest x l n h hrest := by
    have hpc : x.pc n = .atRest := of_decide_eq_true hrest
    rw [h.op, hpc]
    rfl
  call x l n op _ h hrest := by
    have hpc : x.pc n = .atRest := of_decide_eq_true hrest
    have hat := h.place n
    rw [hpc] at hat
    have hmove : ∀ p, p.op = some op → p.At (x.sync.pc n) (x.sync.guards n ()) →
        p.Sees (x.sync.pc n) x.flags False → Glue (x.goto n p) (locks.call l n op) := by
      intro p hop hat hsees
      refine h.move h.inv (fun m _ => ⟨rfl, rfl⟩) hat
        (sees_mono hsees False.elim) (fun m _ hm => ?_) h.waiters h.flags ?_
      · exact sees_mono hm (notify_update (by simp [hpc]))
      · rw [hop]
        rfl
    cases op with
    | take i => exact hmove (.take i) rfl hat trivial
    | release i => exact hmove (.release i) rfl hat trivial
  step x l a x' _ h hs := by
    cases a with
    | statement n => exact h.statement hs
    | next n =>
      obtain ⟨s', hs', rfl⟩ := Option.map_eq_some_iff.mp hs
      exact ⟨l, .refl, h.next hs'⟩
    | spurious n =>
      obtain ⟨s', hs', rfl⟩ := Option.map_eq_some_iff.mp hs
      rw [St.spurious] at hs'
      split at hs'
      · rename_i hmem
        cases hs'
        refine ⟨l, .refl, h.wake [n] fun m hm => ?_⟩
        rw [List.mem_singleton.mp hm]
        exact (h.waiters n).mp hmem
      · cases hs'

/-! ### Nobody is stuck -/

/-- What is left to do in a call. A notification can send everybody back to the lock, so the
statements before it weigh more than the way from there. -/
def weight (p : CondPc) (q : SyncPc) : Nat :=
  match p with
  | .atRest => 0
  | .take _ => 12
  | .test _ =>
    match q with
    | .inner _ _ | .reacquire _ => 11
    | .swap _ _ | .waitSet _ => 10
    | .waitStore _ _ => 8
    | .waitBlock _ _ => 7
    | .blocked _ _ => 6
    | _ => 9
  | .set _ => 5
  | .release _ => 44
  | .clear _ =>
    match q with
    | .inner _ _ => 43
    | .swap _ _ => 42
    | _ => 41
  | .notify => 40
  | .drop => 4
  | .dropping =>
    match q with
    | .dropStore _ => 3
    | .dropUnlock _ => 2
    | _ => 1

theorem weight_advance {p : CondPc} {q q' : SyncPc} {g : Nat} (hat : p.At q g)
    (h : Advance q q') : weight p q' < weight p q := by
  cases h <;> cases p <;> simp_all [CondPc.At, weight]

/-- What is left to do in all calls. -/
def measure (x : CondSync) : Nat := ∑ n, weight (x.pc n) (x.sync.pc n)

/-- A step of philosopher `n` that does not move the others. -/
theorem measure_lt {x' : CondSync} (n : Phil)
    (hother : ∀ m, m ≠ n → x'.pc m = x.pc m ∧ x'.sync.pc m = x.sync.pc m)
    (hn : weight (x'.pc n) (x'.sync.pc n) < weight (x.pc n) (x.sync.pc n)) :
    measure x' < measure x :=
  sum_lt (fun m hm => by rw [(hother m hm).1, (hother m hm).2]) hn

end CondSync

/-- The actions other than a wait that ends without a notification. -/
def CondAct.NotSpurious : CondAct → Prop
  | .spurious _ => False
  | .statement _ | .next _ => True

namespace CondSync

variable {x : CondSync} {l : Locks} {n m : Phil}

/-- Some action leaves less to do. -/
def Moving (x : CondSync) : Prop :=
  ∃ a x', CondAct.NotSpurious a ∧ condSync.step x a = some x' ∧ measure x' < measure x

/-- An operation inside a call leaves less to do. -/
theorem Glue.moving_of_next (h : Glue x l) {s' : St Phil Unit Unit (Fork → Bool)}
    (hs : x.sync.next n = some s') : Moving x := by
  have hmv := h.moves hs
  refine ⟨.next n, { x with sync := s' }, trivial, Option.map_eq_some_iff.mpr ⟨s', hs, rfl⟩, ?_⟩
  exact measure_lt n (fun m hm => ⟨rfl, (hmv.other m hm).1⟩)
    (weight_advance (h.place n) hmv.advance)

/-- A statement that moves its philosopher only. -/
theorem moving_of_statement {s' : St Phil Unit Unit (Fork → Bool)} {p : CondPc} {q : SyncPc}
    (hs : x.statement n = some (({ x with sync := s' } : CondSync).goto n p))
    (hpc : s'.pc = Function.update x.sync.pc n q)
    (hlt : weight p q < weight (x.pc n) (x.sync.pc n)) : Moving x := by
  refine ⟨.statement n, _, trivial, hs, measure_lt n (fun m hm => ⟨?_, ?_⟩) ?_⟩
  · simp [goto, hm]
  · simp [goto, hpc, hm]
  · simpa [goto, hpc] using hlt

/-- Inside a call a philosopher can go on, unless he waits for a notification or for the inner
mutex. -/
theorem next_isSome {s : St Phil Unit Unit (Fork → Bool)} {q' : SyncPc}
    (h : Advance (s.pc n) q')
    (hlock : s.pc n = .inner .lock () ∨ s.pc n = .reacquire () →
      (s.mutex ()).inner.lock n ≠ none) : ∃ s', s.next n = some s' := by
  generalize hq : s.pc n = q at h hlock
  cases h with
  | lock | reacquire =>
    obtain ⟨k, hk⟩ := Option.ne_none_iff_exists'.mp (hlock (by simp))
    simp [St.next, hq, hk]
  | accept =>
    simp only [St.next, hq]
    split <;> exact ⟨_, rfl⟩
  | dropUnlock =>
    simp only [St.next, hq]
    split <;> exact ⟨_, rfl⟩
  | dropStore | waitStore | waitBlock | waitSet =>
    simp only [St.next, hq]
    exact ⟨_, rfl⟩

/-- Everybody is woken: each of the others is sent back to the lock, and that costs less than the
statement has weighed. -/
theorem Glue.moving_of_notify (h : Glue x l) (hp : x.pc n = .notify) : Moving x := by
  refine ⟨.statement n, ({ x with sync := x.sync.notifyAll () } : CondSync).goto n .drop, trivial,
    ?_, ?_⟩
  · simp only [condSync, CondSync.statement, hp]
  · refine sum_lt_of_drop (n := n) (c := 5) (fun m hm => ?_) ?_
    · simp only [CondSync.goto, Function.update_of_ne hm]
      by_cases hmem : m ∈ x.sync.waiters ()
      · have hat := h.place m
        have hpc := (h.waiters m).mp hmem
        rw [hpc] at hat
        obtain ⟨⟨i, hi⟩, -⟩ := test_of_blocked hat
        simp [St.notifyAll, St.wakeAll, hmem, hpc, hi, Sync.Pc.wake, weight]
      · simp [St.notifyAll, St.wakeAll, hmem]
    · simp [CondSync.goto, hp, weight, numPhil]

/-- The places at which a philosopher waits for the inner mutex. -/
def Locking (q : SyncPc) : Prop := q = .inner .lock () ∨ q = .reacquire ()

/-- A philosopher in a call is at rest in the mutex, or waits, or goes on. -/
theorem advance_of_at {p : CondPc} {q : SyncPc} {g : Nat} (h : p.At q g) :
    q = .idle ∨ (∃ r, q = .returned r) ∨ q = .blocked () () ∨ ∃ q', Advance q q' := by
  cases q with
  | idle => exact .inl rfl
  | returned r => exact .inr (.inl ⟨r, rfl⟩)
  | blocked _ _ => exact .inr (.inr (.inl rfl))
  | inner c _ =>
    obtain rfl := lock_of_at h (.inl rfl)
    exact .inr (.inr (.inr ⟨_, .lock⟩))
  | swap c _ =>
    obtain rfl := lock_of_at h (.inr rfl)
    exact .inr (.inr (.inr ⟨_, .accept⟩))
  | dropStore _ => exact .inr (.inr (.inr ⟨_, .dropStore⟩))
  | dropUnlock _ => exact .inr (.inr (.inr ⟨_, .dropUnlock⟩))
  | waitStore _ _ => exact .inr (.inr (.inr ⟨_, .waitStore⟩))
  | waitBlock _ _ => exact .inr (.inr (.inr ⟨_, .waitBlock⟩))
  | reacquire _ => exact .inr (.inr (.inr ⟨_, .reacquire⟩))
  | waitSet _ => exact .inr (.inr (.inr ⟨_, .waitSet⟩))
  | undo _ _ | panicked _ => cases p <;> simp_all [CondPc.At]

/-- A philosopher with a guard can give it away, and can write the data. -/
theorem give_eq {s : St Phil Unit Unit (Fork → Bool)} (hrest : s.atRest n)
    (hg : s.guards n () = 1) (q : SyncPc) :
    s.give n () q = some ((s.setGuards n () 0).setPc n q) := by
  rw [St.give, if_pos ⟨hrest, by omega⟩, hg]

theorem derefMut_eq {s : St Phil Unit Unit (Fork → Bool)} (hrest : s.atRest n)
    (hg : s.guards n () = 1) (d : Fork → Bool) :
    s.derefMut n () d = some (s.setMutex () { s.mutex () with data := d }) := by
  rw [St.derefMut, if_pos ⟨hrest, by omega⟩]

/-- A philosopher whose call of `lock` or `wait` has returned has the guard. -/
theorem returned_of_at {p : CondPc} {q : SyncPc} {g : Nat} (h : p.At q g)
    (hp : (∃ i, p = .test i) ∨ ∃ i, p = .clear i) (hq : q = .idle ∨ ∃ r, q = .returned r) :
    q = .returned (.guard ()) ∧ g = 1 := by
  rcases hq with rfl | ⟨r, rfl⟩
  · rcases hp with ⟨i, rfl⟩ | ⟨i, rfl⟩ <;> cases h
  · rcases hp with ⟨i, rfl⟩ | ⟨i, rfl⟩ <;> cases r <;> first | exact ⟨rfl, h⟩ | cases h

theorem atRest_iff {s : St Phil Unit Unit (Fork → Bool)} :
    s.atRest n ↔ s.pc n = .idle ∨ ∃ r, s.pc n = .returned r := by
  unfold St.atRest
  cases s.pc n <;> simp

/-- A philosopher whose call of the mutex has returned performs his statement. -/
theorem Glue.moving_of_returned (h : Glue x l) (hp : x.pc n ≠ .atRest)
    (hrest : x.sync.atRest n) : Moving x := by
  have hat := h.place n
  have hcall : x.sync.call .lock n () = some (x.sync.setPc n (.inner .lock ())) := by
    rw [St.call, if_pos hrest]
  cases hp' : x.pc n with
  | atRest => exact absurd hp' hp
  | notify => exact h.moving_of_notify hp'
  | take i =>
    refine moving_of_statement (n := n) (p := .test i) (q := .inner .lock ())
      (by simp only [CondSync.statement, hp', hcall]; rfl) rfl (by simp [hp', weight])
  | release i =>
    refine moving_of_statement (n := n) (p := .clear i) (q := .inner .lock ())
      (by simp only [CondSync.statement, hp', hcall]; rfl) rfl (by simp [hp', weight])
  | test i =>
    rw [hp'] at hat
    obtain ⟨hpc, hg⟩ := returned_of_at hat (.inl ⟨i, rfl⟩) (atRest_iff.mp hrest)
    have hguard : x.hasGuard n := decide_eq_true hpc
    cases hflag : x.flags i with
    | true =>
      refine moving_of_statement (n := n) (p := .test i) (q := .waitStore () ())
        (by simp only [CondSync.statement, hp', hguard, hflag, St.wait, give_eq hrest hg]; rfl)
        rfl (by simp [hp', hpc, weight])
    | false =>
      refine moving_of_statement (n := n) (p := .set i) (q := x.sync.pc n)
        (by simp only [CondSync.statement, hp', hguard, hflag]; rfl)
        (Function.update_eq_self _ _).symm (by simp [hp', hpc, weight])
  | set i =>
    rw [hp'] at hat
    refine moving_of_statement (n := n) (p := .drop) (q := x.sync.pc n)
      (by simp only [CondSync.statement, hp', derefMut_eq hrest hat.1]; rfl) ?_
      (by simp [hp', weight])
    exact (Function.update_eq_self n x.sync.pc).symm
  | clear i =>
    rw [hp'] at hat
    obtain ⟨hpc, hg⟩ := returned_of_at hat (.inr ⟨i, rfl⟩) (atRest_iff.mp hrest)
    have hguard : x.hasGuard n := decide_eq_true hpc
    refine moving_of_statement (n := n) (p := .notify) (q := x.sync.pc n)
      (by simp only [CondSync.statement, hp', hguard, derefMut_eq hrest hg]; rfl) ?_
      (by simp [hp', hpc, weight])
    exact (Function.update_eq_self n x.sync.pc).symm
  | drop =>
    rw [hp'] at hat
    refine moving_of_statement (n := n) (p := .dropping) (q := .dropStore ())
      (by simp only [CondSync.statement, hp', St.drop, give_eq hrest hat.1]; rfl) rfl
      (by simp [hp', weight])
  | dropping =>
    rw [hp'] at hat
    obtain ⟨-, hq | hq | hq⟩ := hat
    · simp [St.atRest, hq] at hrest
    · simp [St.atRest, hq] at hrest
    · refine moving_of_statement (n := n) (p := .atRest) (q := x.sync.pc n)
        (by simp only [CondSync.statement, hp', hq]; rfl) (Function.update_eq_self _ _).symm
        (by simp [hp', hq, weight])

/-- A philosopher in a call goes on, when he does not wait. -/
theorem Glue.moving (h : Glue x l) (hp : x.pc n ≠ .atRest) (hb : x.sync.pc n ≠ .blocked () ())
    (hlock : Locking (x.sync.pc n) → (x.sync.mutex ()).inner.lock n ≠ none) : Moving x := by
  rcases advance_of_at (h.place n) with hq | hq | hq | ⟨q', hq⟩
  · exact h.moving_of_returned hp (atRest_iff.mpr (.inl hq))
  · exact h.moving_of_returned hp (atRest_iff.mpr (.inr hq))
  · exact absurd hq hb
  · obtain ⟨s', hs'⟩ := next_isSome hq hlock
    exact h.moving_of_next hs'

/-- The owner of the mutex goes on. -/
theorem Glue.moving_of_owner (h : Glue x l) (ho : (x.sync.mutex ()).inner.owner = some n) :
    Moving x := by
  have hat := h.place n
  have hin := (h.inv.owner ho).1
  refine h.moving (n := n) ?_ ?_ ?_
  · intro hp
    rw [hp] at hat
    rcases hat with ⟨hg, hq | hq⟩ <;>
      simp [St.between, St.activeGuards, hg, hq, Sync.Pc.guard, Sync.Pc.attempt] at hin
  · intro hb
    rw [hb] at hat
    have hg := (test_of_blocked hat).2
    simp [St.between, St.activeGuards, hg, hb, Sync.Pc.guard, Sync.Pc.attempt] at hin
  · intro hq
    have hg : x.sync.guards n () = 0 := guards_of_at hat (by rcases hq with hq | hq <;> simp [hq])
    rcases hq with hq | hq <;>
      simp [St.between, St.activeGuards, hg, hq, Sync.Pc.guard, Sync.Pc.attempt] at hin

/-- A call that the locks would serve is not stuck. Its philosopher goes on, or the owner of the
mutex does, or somebody is about to wake him. -/
theorem Glue.moving_of_ready (h : Glue x l) (hp : x.pc n ≠ .atRest) (hready : Ready l n) :
    Moving x := by
  by_cases hb : x.sync.pc n = .blocked () ()
  · have hat := h.place n
    have hsees := h.sees n
    have hop := h.op n
    rw [hb] at hat hsees
    obtain ⟨⟨i, hi⟩, -⟩ := test_of_blocked hat
    rw [hi] at hsees hop
    rcases hsees with hflag | ⟨m, hm⟩
    · exact absurd (hready i hop) ((h.flags i).mp hflag)
    · exact h.moving_of_notify hm
  · by_cases hlock : (x.sync.mutex ()).inner.lock n = none
    · have ho : ∃ u, (x.sync.mutex ()).inner.owner = some u := by
        cases ho : (x.sync.mutex ()).inner.owner with
        | none => simp [Sys.Mutex.lock, ho] at hlock
        | some u => exact ⟨u, rfl⟩
      obtain ⟨u, hu⟩ := ho
      exact h.moving_of_owner hu
    · exact h.moving hp hb fun _ => hlock

theorem live : Live condSync Glue CondAct.NotSpurious measure 44 where
  call x l n op h hrest := by
    have hpc : x.pc n = .atRest := of_decide_eq_true hrest
    refine sum_le_add (n := n) (fun m hm => ?_) ?_
    · cases op <;> simp [condSync, CondSync.goto, hm]
    · cases op <;> simp [condSync, CondSync.goto, hpc, weight]
  progress x l n _ h hrest hready := by
    have hpc : x.pc n ≠ .atRest := of_decide_eq_false hrest
    exact h.moving_of_ready hpc hready

end CondSync

/-- The monitor of `CondSync` serves the philosophers, and no wake-up is lost: nobody needs a
wait that ends without a notification. -/
theorem condSync_serves : Serves condSync CondAct.NotSpurious fun x =>
    ∃ n p, x.sync.pc n = .panicked p :=
  CondSync.implements.serves CondSync.live fun x _ h hn => by
    obtain ⟨n, p, hn⟩ := hn
    have hat := h.place n
    rw [hn] at hat
    cases hp : x.pc n <;> simp_all [CondPc.At]

end ZephyrRust.Philosophers
