import ZephyrRust.Mutex

/-!
# `ZephyrRust.Proofs.Mutex`: mutual exclusion of the mutex

One mutex and one thread at a time. `View` is what a thread has of a mutex: the number of its
guards, and the `Phase` of the call it is in. `Change` lists what a step can do to a mutex and to
the view of the thread that moves. `Inv.of_step` shows that a step of the model is one
change, of one thread at one mutex, or no change of any view.

`Ok` is the invariant of a mutex and the views of all threads. The owner of the inner mutex has
as many levels as `count` says, and its view fits the flag (`View.Flag`). All other threads are
outside. Every change keeps `Ok`, because a change needs the inner mutex to be free or to be the
thread's own.
-/

set_option autoImplicit false

namespace ZephyrRust.Sync

open ZephyrRust.Lib (System)

variable {Tid M C T : Type}

/-! ## One mutex -/

/-- The part of a call that a thread is in at a mutex. In all phases but `waiting` the call
has a level of the inner mutex. -/
inductive Phase
  /-- `lock` or `try_lock`, before the swap of the flag. -/
  | swap
  /-- `lock` or `try_lock`, before the unlock of a rejected attempt. -/
  | undo
  /-- `drop` or `wait`, before the flag is cleared. -/
  | store
  /-- `drop` or `wait`, before the inner mutex is released. -/
  | release
  /-- `wait`, without the inner mutex. -/
  | waiting
  /-- `wait`, before the flag is set. -/
  | set
  deriving DecidableEq

/-- What a thread has of a mutex: the guards in its variables, and the phase of its call. -/
structure View where
  guards : Nat
  phase : Option Phase

namespace View

/-- The levels of the inner mutex that the thread has. A guard is one level. -/
def levels (v : View) : Nat :=
  match v.phase with
  | none => v.guards
  | some .waiting => v.guards
  | some _ => v.guards + 1

/-- The view of a thread that does not own the inner mutex. -/
def Out (v : View) : Prop := v.guards = 0 ∧ (v.phase = none ∨ v.phase = some .waiting)

/-- How the view of the owner fits the flag. The owner has one guard, or its call is about to
make one, or the call has the guard. A second level is there in a recursive attempt only. -/
def Flag (v : View) (locked : Bool) : Prop :=
  match v.phase with
  | none => v.guards = 1 ∧ locked = true
  | some .swap => v.guards = 0 ∧ locked = false ∨ v.guards = 1 ∧ locked = true
  | some .undo => v.guards = 1 ∧ locked = true
  | some .store => v.guards = 0 ∧ locked = true
  | some .release => v.guards = 0 ∧ locked = false
  | some .waiting => False
  | some .set => v.guards = 0 ∧ locked = false

end View

/-- The invariant of a mutex `x`, where `v t` is the view of thread `t`. -/
structure Ok (x : Mutex Tid T) (v : Tid → View) : Prop where
  owned : ∀ t, x.inner.owner = some t →
    x.inner.count = (v t).levels ∧ (v t).Flag x.locked
  others : ∀ t, x.inner.owner ≠ some t → (v t).Out
  free : x.inner.owner = none → x.locked = false

/-- The mutex that the call of a thread works on, and the phase of the call. -/
def Pc.phase : Pc M C → Option (M × Phase)
  | .swap _ m => some (m, .swap)
  | .undo _ m => some (m, .undo)
  | .dropStore m => some (m, .store)
  | .dropUnlock m => some (m, .release)
  | .waitStore _ m => some (m, .store)
  | .waitBlock _ m => some (m, .release)
  | .blocked _ m => some (m, .waiting)
  | .reacquire m => some (m, .waiting)
  | .waitSet m => some (m, .set)
  | _ => none

/-- A thread that is in no call is in no phase. -/
theorem phase_of_atRest {s : St Tid M C T} {t : Tid} (h : s.atRest t) : (s.pc t).phase = none := by
  unfold St.atRest at h
  split at h
  · rename_i hpc
    rw [hpc]
    rfl
  · rename_i hpc
    rw [hpc]
    rfl
  · cases h

variable [DecidableEq Tid]

/-- What a step of thread `t` can do to a mutex and to the view of `t`. -/
inductive Change (t : Tid) : Mutex Tid T → View → Mutex Tid T → View → Prop
  | lock {x : Mutex Tid T} {g : Nat} {k : Sys.Mutex Tid} (hk : x.inner.lock t = some k) :
      Change t x ⟨g, none⟩ { x with inner := k } ⟨g, some .swap⟩
  | reject {x : Mutex Tid T} {g : Nat} (hl : x.locked = true) :
      Change t x ⟨g, some .swap⟩ { x with locked := true } ⟨g, some .undo⟩
  | accept {x : Mutex Tid T} {g : Nat} (hl : x.locked = false) :
      Change t x ⟨g, some .swap⟩ { x with locked := true } ⟨g + 1, none⟩
  | undo {x : Mutex Tid T} {g : Nat} {k : Sys.Mutex Tid} (hk : x.inner.unlock t = some k) :
      Change t x ⟨g, some .undo⟩ { x with inner := k } ⟨g, none⟩
  | give {x : Mutex Tid T} {g : Nat} : Change t x ⟨g + 1, none⟩ x ⟨g, some .store⟩
  | store {x : Mutex Tid T} {g : Nat} :
      Change t x ⟨g, some .store⟩ { x with locked := false } ⟨g, some .release⟩
  | dropUnlock {x : Mutex Tid T} {g : Nat} {k : Sys.Mutex Tid}
      (hk : x.inner.unlock t = some k) :
      Change t x ⟨g, some .release⟩ { x with inner := k } ⟨g, none⟩
  | waitUnlock {x : Mutex Tid T} {g : Nat} {k : Sys.Mutex Tid}
      (hk : x.inner.unlock t = some k) :
      Change t x ⟨g, some .release⟩ { x with inner := k } ⟨g, some .waiting⟩
  | reacquire {x : Mutex Tid T} {g : Nat} {k : Sys.Mutex Tid}
      (hk : x.inner.lock t = some k) :
      Change t x ⟨g, some .waiting⟩ { x with inner := k } ⟨g, some .set⟩
  | set {x : Mutex Tid T} {g : Nat} :
      Change t x ⟨g, some .set⟩ { x with locked := true } ⟨g + 1, none⟩
  | data {x : Mutex Tid T} {v : View} {d : T} : Change t x v { x with data := d } v

namespace Ok

variable {x x' : Mutex Tid T} {v : Tid → View} {t : Tid} {w : View}

/-- A thread that is not outside owns the inner mutex. -/
theorem owner_of_not_out (h : Ok x v) (ht : ¬(v t).Out) : x.inner.owner = some t := by
  by_contra hne
  exact ht (h.others t hne)

/-- A thread in a phase with a level owns the inner mutex, with one level more than its
guards. -/
theorem in_phase (h : Ok x v) {g : Nat} {p : Phase} (hv : v t = ⟨g, some p⟩)
    (hp : p ≠ .waiting) :
    x.inner.owner = some t ∧ x.inner.count = g + 1 ∧
      View.Flag ⟨g, some p⟩ x.locked := by
  have ho : x.inner.owner = some t := by
    refine h.owner_of_not_out fun hout => ?_
    rw [hv] at hout
    rcases hout.2 with hn | hw
    · cases hn
    · exact hp (Option.some.inj hw)
  obtain ⟨hcount, hflag⟩ := h.owned t ho
  rw [hv] at hcount hflag
  refine ⟨ho, ?_, hflag⟩
  rw [hcount]
  cases p <;> first | rfl | exact absurd rfl hp

/-- A step after which `t` owns the inner mutex. -/
theorem to_owned (h : Ok x v) (hx : x.inner.owner = none ∨ x.inner.owner = some t)
    (ho : x'.inner.owner = some t) (hc : x'.inner.count = w.levels)
    (hf : w.Flag x'.locked) : Ok x' (Function.update v t w) := by
  refine ⟨fun u hu => ?_, fun u hu => ?_, fun hn => ?_⟩
  · obtain rfl : t = u := Option.some.inj (ho.symm.trans hu)
    rw [Function.update_self]
    exact ⟨hc, hf⟩
  · have hne : u ≠ t := by
      rintro rfl
      exact hu ho
    rw [Function.update_of_ne hne]
    -- Before the step, the mutex was free or `t` owned it, and `u` is another thread.
    refine h.others u fun hxu => ?_
    rcases hx with hx | hx
    · rw [hx] at hxu
      cases hxu
    · exact hne (Option.some.inj (hxu.symm.trans hx))
  · rw [ho] at hn
    cases hn

/-- A step in which the owner `t` gives up the inner mutex. -/
theorem to_free (h : Ok x v) (hx : x.inner.owner = some t) (ho : x'.inner.owner = none)
    (hl : x'.locked = false) (hw : w.Out) : Ok x' (Function.update v t w) := by
  refine ⟨fun u hu => ?_, fun u _ => ?_, fun _ => hl⟩
  · rw [ho] at hu
    cases hu
  · by_cases hut : u = t
    · rw [hut, Function.update_self]
      exact hw
    · rw [Function.update_of_ne hut]
      refine h.others u fun hxu => hut ?_
      exact Option.some.inj (hxu.symm.trans hx)

/-- Every change keeps the invariant of the mutex. -/
theorem change (h : Ok x v) (hc : Change t x (v t) x' w) :
    Ok x' (Function.update v t w) := by
  generalize hv : v t = vt at hc
  cases hc with
  | @lock g _ hk =>
    rcases Sys.Mutex.lock_eq_some hk with ⟨ho, rfl⟩ | ⟨ho, rfl⟩
    · have hg : g = 0 := by simpa [hv] using (h.others t (by simp [ho])).1
      subst hg
      exact h.to_owned (Or.inl ho) rfl rfl (Or.inl ⟨rfl, h.free ho⟩)
    · -- The thread has a guard already: this is a recursive attempt.
      obtain ⟨hcount, hflag⟩ := h.owned t ho
      rw [hv] at hcount hflag
      refine h.to_owned (Or.inr ho) rfl ?_ (Or.inr hflag)
      show x.inner.count + 1 = g + 1
      rw [hcount]
      rfl
  | @reject g hl =>
    obtain ⟨ho, hcount, hflag⟩ := h.in_phase hv (by decide)
    -- The flag is set, so the thread has a guard.
    rcases hflag with ⟨-, hf⟩ | ⟨hg, -⟩
    · rw [hl] at hf
      cases hf
    · exact h.to_owned (Or.inr ho) ho hcount ⟨hg, rfl⟩
  | @accept g hl =>
    obtain ⟨ho, hcount, hflag⟩ := h.in_phase hv (by decide)
    -- The flag is clear, so the thread has no guard yet.
    rcases hflag with ⟨hg, -⟩ | ⟨-, hf⟩
    · exact h.to_owned (Or.inr ho) ho hcount ⟨congrArg (· + 1) hg, rfl⟩
    · rw [hl] at hf
      cases hf
  | @undo g _ hk =>
    obtain ⟨ho, hcount, hg, hl⟩ := h.in_phase hv (by decide)
    obtain rfl : g = 1 := hg
    -- The guard is one level and the attempt a second one, so one level is left.
    obtain rfl := Sys.Mutex.unlock_of_lt ho (by omega) hk
    refine h.to_owned (Or.inr ho) ho ?_ ⟨rfl, hl⟩
    show x.inner.count - 1 = 1
    omega
  | @give g =>
    have ho := h.owner_of_not_out (t := t) (by simp [hv, View.Out])
    obtain ⟨hcount, hflag⟩ := h.owned t ho
    rw [hv] at hcount hflag
    exact h.to_owned (Or.inr ho) ho hcount ⟨Nat.succ.inj hflag.1, hflag.2⟩
  | @store g =>
    obtain ⟨ho, hcount, hg, -⟩ := h.in_phase hv (by decide)
    exact h.to_owned (Or.inr ho) ho hcount ⟨hg, rfl⟩
  | @dropUnlock g _ hk =>
    obtain ⟨ho, hcount, hg, hl⟩ := h.in_phase hv (by decide)
    obtain rfl : g = 0 := hg
    -- The guard of the call was the last level.
    obtain rfl := Sys.Mutex.unlock_of_le ho (by omega) hk
    exact h.to_free ho rfl hl ⟨rfl, Or.inl rfl⟩
  | @waitUnlock g _ hk =>
    obtain ⟨ho, hcount, hg, hl⟩ := h.in_phase hv (by decide)
    obtain rfl : g = 0 := hg
    obtain rfl := Sys.Mutex.unlock_of_le ho (by omega) hk
    exact h.to_free ho rfl hl ⟨rfl, Or.inr rfl⟩
  | @reacquire g _ hk =>
    rcases Sys.Mutex.lock_eq_some hk with ⟨ho, rfl⟩ | ⟨ho, rfl⟩
    · have hg : g = 0 := by simpa [hv] using (h.others t (by simp [ho])).1
      subst hg
      exact h.to_owned (Or.inl ho) rfl rfl ⟨rfl, h.free ho⟩
    · -- A thread that waits does not own the mutex.
      have hflag := (h.owned t ho).2
      rw [hv] at hflag
      exact hflag.elim
  | @set g =>
    obtain ⟨ho, hcount, hg, -⟩ := h.in_phase hv (by decide)
    exact h.to_owned (Or.inr ho) ho hcount ⟨congrArg (· + 1) hg, rfl⟩
  | data =>
    rw [← hv, Function.update_eq_self]
    exact ⟨h.owned, h.others, h.free⟩

end Ok

/-! ## All mutexes -/

variable [DecidableEq M]

/-- The phase of a call at the mutex `m`. -/
def Pc.phaseAt (p : Pc M C) (m : M) : Option Phase :=
  match p.phase with
  | some (n, f) => if n = m then some f else none
  | none => none

/-- A call that is in the phase `f` at `m` is in no phase at other mutexes. -/
theorem Pc.phaseAt_of_some {p : Pc M C} {m : M} {f : Phase} (h : p.phase = some (m, f))
    (n : M) : p.phaseAt n = if m = n then some f else none := by
  simp [Pc.phaseAt, h]

theorem Pc.phaseAt_of_none {p : Pc M C} (h : p.phase = none) (m n : M) :
    p.phaseAt n = if m = n then none else none := by
  simp [Pc.phaseAt, h]

/-- The phase of a woken thread stays: it is in its wait until it has the mutex again. -/
theorem Pc.phaseAt_wake (p : Pc M C) (m : M) : p.wake.phaseAt m = p.phaseAt m := by
  cases p <;> rfl

omit [DecidableEq M] in
/-- A wake-up raises no panic. -/
theorem Pc.panicked_of_wake {p : Pc M C} {q : Panic} (h : p.wake = .panicked q) :
    p = .panicked q := by
  cases p <;> first | exact h | cases h

/-- What thread `t` has of the mutex `m`. -/
def St.view (s : St Tid M C T) (t : Tid) (m : M) : View where
  guards := s.guards t m
  phase := (s.pc t).phaseAt m

/-- Every mutex keeps its invariant. -/
def Inv (s : St Tid M C T) : Prop := ∀ m, Ok (s.mutex m) fun t => s.view t m

/-- What a step does to the mutexes and the views: nothing, or a change of one thread at one
mutex. -/
inductive Effect (s s' : St Tid M C T) : Prop
  | quiet (hm : ∀ m, s'.mutex m = s.mutex m) (hv : ∀ t m, s'.view t m = s.view t m)
  | change (t : Tid) (m : M)
      (hc : Change t (s.mutex m) (s.view t m) (s'.mutex m) (s'.view t m))
      (hm : ∀ n, n ≠ m → s'.mutex n = s.mutex n)
      (hv : ∀ u n, u ≠ t ∨ n ≠ m → s'.view u n = s.view u n)

/-- What a step does, and the panics it can raise: only that of a recursive lock. -/
structure Steps (s s' : St Tid M C T) : Prop where
  effect : Effect s s'
  panics : ∀ u q, s'.pc u = .panicked q → s.pc u = .panicked q ∨ q = .recursive

variable {s s' : St Tid M C T} {t : Tid} {m : M}

/-- Every step keeps the invariant. -/
theorem Inv.steps (h : Inv s) (hs : Effect s s') : Inv s' := by
  intro n
  cases hs with
  | quiet hm hv =>
    rw [hm]
    simpa only [hv] using h n
  | change t m hc hm hv =>
    by_cases hn : n = m
    · subst hn
      -- Only the view of `t` changes.
      have hview : (fun u => s'.view u n)
          = Function.update (fun u => s.view u n) t (s'.view t n) := by
        funext u
        by_cases hu : u = t
        · rw [hu, Function.update_self]
        · rw [Function.update_of_ne hu, hv u n (Or.inl hu)]
      rw [hview]
      exact (h n).change hc
    · rw [hm n hn]
      simpa only [hv _ n (Or.inr hn)] using h n

/-- The owner is the thread that is in a phase with a level, so its unlock goes through. -/
theorem Inv.unlock_ne_none (h : Inv s) {f : Phase} (hp : (s.pc t).phase = some (m, f))
    (hf : f ≠ .waiting) : (s.mutex m).inner.unlock t ≠ none := by
  have hview : s.view t m = ⟨s.guards t m, some f⟩ := by
    rw [St.view, Pc.phaseAt_of_some hp, if_pos rfl]
  have ho := ((h m).in_phase hview hf).1
  exact fun hn => Sys.Mutex.unlock_eq_none.mp hn ho

omit [DecidableEq M] in
/-- A step that moves `t` to a place without another panic. -/
theorem panics_of_update {p : Pc M C} (hpc : s'.pc = Function.update s.pc t p)
    (hp : ∀ q, p = .panicked q → q = .recursive) (u : Tid) (q : Panic)
    (hq : s'.pc u = .panicked q) : s.pc u = .panicked q ∨ q = .recursive := by
  rw [hpc] at hq
  by_cases hu : u = t
  · rw [hu, Function.update_self] at hq
    exact Or.inr (hp q hq)
  · rw [Function.update_of_ne hu] at hq
    exact Or.inl hq

/-- A step that writes the mutex `m`, the guards of `t` at `m` and the place of `t` is a change,
when the calls before and after it are in no phase at other mutexes. -/
theorem Steps.of_write {x : Mutex Tid T} {p : Pc M C} {g : Nat} {b a : Option Phase}
    (hmutex : s'.mutex = Function.update s.mutex m x)
    (hpc : s'.pc = Function.update s.pc t p)
    (hguards : ∀ u n, u ≠ t ∨ n ≠ m → s'.guards u n = s.guards u n)
    (hg : s'.guards t m = g)
    (hb : ∀ n, (s.pc t).phaseAt n = if m = n then b else none)
    (ha : ∀ n, p.phaseAt n = if m = n then a else none)
    (hc : Change t (s.mutex m) ⟨s.guards t m, b⟩ x ⟨g, a⟩)
    (hp : ∀ q, p = .panicked q → q = .recursive) : Steps s s' := by
  refine ⟨.change t m ?_ (fun n hn => ?_) (fun u n hun => ?_), panics_of_update hpc hp⟩
  · have hv : s.view t m = ⟨s.guards t m, b⟩ := by
      rw [St.view, hb, if_pos rfl]
    have hv' : s'.view t m = ⟨g, a⟩ := by
      rw [St.view, hg, hpc, Function.update_self, ha, if_pos rfl]
    rw [hv, hv', hmutex, Function.update_self]
    exact hc
  · rw [hmutex, Function.update_of_ne hn]
  · rw [St.view, St.view, hguards u n hun, hpc]
    by_cases hu : u = t
    · subst hu
      -- At another mutex `t` is in no phase, before and after.
      have hn : m ≠ n := (hun.resolve_left fun hne => hne rfl).symm
      rw [Function.update_self, ha, hb, if_neg hn, if_neg hn]
    · rw [Function.update_of_ne hu]

/-- A step that only moves the place of `t` between calls that are in no phase is quiet. -/
theorem Steps.of_setPc {p : Pc M C} (hb : (s.pc t).phase = none) (ha : p.phase = none)
    (hp : ∀ q, p = .panicked q → q = .recursive) : Steps s (s.setPc t p) := by
  refine ⟨.quiet (fun _ => rfl) fun u n => ?_, panics_of_update rfl hp⟩
  rw [St.view, St.view]
  by_cases hu : u = t
  · subst hu
    simp [Pc.phaseAt, hb, ha]
  · simp [Function.update_of_ne hu]

/-- The guards that `setGuards` leaves. -/
theorem setGuards_of_ne {u : Tid} {n : M} {k : Nat} (h : u ≠ t ∨ n ≠ m) :
    (s.setGuards t m k).guards u n = s.guards u n := by
  by_cases hu : u = t
  · subst hu
    have hn : n ≠ m := h.resolve_left fun hne => hne rfl
    simp [Function.update_of_ne hn]
  · simp [Function.update_of_ne hu]

/-- A step of a call is a change at its mutex, or it is quiet. -/
theorem Inv.of_next [DecidableEq C] (hi : Inv s) (h : s.next t = some s') : Steps s s' := by
  cases hpc : s.pc t with
  | idle => simp [St.next, hpc] at h
  | inner c m =>
    have hb : (s.pc t).phase = none := by rw [hpc]; rfl
    simp only [St.next, hpc] at h
    split at h
    · rename_i k hk
      cases h
      exact .of_write rfl rfl (fun _ _ _ => rfl) rfl (Pc.phaseAt_of_none hb m)
        (Pc.phaseAt_of_some rfl) (.lock hk) (by simp)
    · cases c with
      | lock => cases h
      | tryLock =>
        cases h
        exact .of_setPc hb rfl (by simp)
  | swap c m =>
    have hb : (s.pc t).phase = some (m, .swap) := by rw [hpc]; rfl
    simp only [St.next, hpc] at h
    split at h
    · rename_i hl
      cases h
      exact .of_write rfl rfl (fun _ _ _ => rfl) rfl (Pc.phaseAt_of_some hb)
        (Pc.phaseAt_of_some rfl) (.reject hl) (by simp)
    · rename_i hl
      cases h
      exact .of_write rfl rfl (fun _ _ => setGuards_of_ne) (by simp) (Pc.phaseAt_of_some hb)
        (Pc.phaseAt_of_none rfl m) (.accept (by simpa using hl)) (by simp)
  | undo c m =>
    have hb : (s.pc t).phase = some (m, .undo) := by rw [hpc]; rfl
    simp only [St.next, hpc] at h
    split at h
    · rename_i k hk
      cases c <;>
      · cases h
        exact .of_write rfl rfl (fun _ _ _ => rfl) rfl (Pc.phaseAt_of_some hb)
          (Pc.phaseAt_of_none rfl m) (.undo hk) (by simp)
    · exact absurd ‹_› (hi.unlock_ne_none hb (by decide))
  | dropStore m =>
    have hb : (s.pc t).phase = some (m, .store) := by rw [hpc]; rfl
    simp only [St.next, hpc] at h
    cases h
    exact .of_write rfl rfl (fun _ _ _ => rfl) rfl (Pc.phaseAt_of_some hb)
      (Pc.phaseAt_of_some rfl) .store (by simp)
  | dropUnlock m =>
    have hb : (s.pc t).phase = some (m, .release) := by rw [hpc]; rfl
    simp only [St.next, hpc] at h
    split at h
    · rename_i k hk
      cases h
      exact .of_write rfl rfl (fun _ _ _ => rfl) rfl (Pc.phaseAt_of_some hb)
        (Pc.phaseAt_of_none rfl m) (.dropUnlock hk) (by simp)
    · exact absurd ‹_› (hi.unlock_ne_none hb (by decide))
  | waitStore cv m =>
    have hb : (s.pc t).phase = some (m, .store) := by rw [hpc]; rfl
    simp only [St.next, hpc] at h
    cases h
    exact .of_write rfl rfl (fun _ _ _ => rfl) rfl (Pc.phaseAt_of_some hb)
      (Pc.phaseAt_of_some rfl) .store (by simp)
  | waitBlock cv m =>
    have hb : (s.pc t).phase = some (m, .release) := by rw [hpc]; rfl
    -- The kernel does not look at the result of this unlock, but it is no error either.
    obtain ⟨k, hk⟩ := Option.ne_none_iff_exists'.mp (hi.unlock_ne_none hb (by decide))
    simp only [St.next, hpc, hk, Option.getD_some] at h
    cases h
    exact .of_write rfl rfl (fun _ _ _ => rfl) rfl (Pc.phaseAt_of_some hb)
      (Pc.phaseAt_of_some rfl) (.waitUnlock hk) (by simp)
  | blocked cv m => simp [St.next, hpc] at h
  | reacquire m =>
    have hb : (s.pc t).phase = some (m, .waiting) := by rw [hpc]; rfl
    simp only [St.next, hpc] at h
    split at h
    · rename_i k hk
      cases h
      exact .of_write rfl rfl (fun _ _ _ => rfl) rfl (Pc.phaseAt_of_some hb)
        (Pc.phaseAt_of_some rfl) (.reacquire hk) (by simp)
    · cases h
  | waitSet m =>
    have hb : (s.pc t).phase = some (m, .set) := by rw [hpc]; rfl
    simp only [St.next, hpc] at h
    cases h
    exact .of_write rfl rfl (fun _ _ => setGuards_of_ne) (by simp) (Pc.phaseAt_of_some hb)
      (Pc.phaseAt_of_none rfl m) .set (by simp)
  | returned r => simp [St.next, hpc] at h
  | panicked p => simp [St.next, hpc] at h

/-- A guard that is given to a call turns into the level of the call. -/
theorem Steps.of_give {p : Pc M C} (hp : p.phase = some (m, .store))
    (h : s.give t m p = some s') : Steps s s' := by
  simp only [St.give] at h
  split at h
  · rename_i hg
    cases h
    obtain ⟨g, hg'⟩ : ∃ g, s.guards t m = g + 1 := Nat.exists_eq_add_one.mpr hg.2
    refine .of_write (g := g) (x := s.mutex m) ?_ rfl (fun _ _ => setGuards_of_ne) ?_
      (Pc.phaseAt_of_none (phase_of_atRest hg.1) m) (Pc.phaseAt_of_some hp) ?_ ?_
    · exact (Function.update_eq_self m s.mutex).symm
    · simp [hg']
    · rw [hg']
      exact .give
    · rintro q rfl
      cases hp
  · cases h

/-- A thread that is woken keeps its view. -/
theorem Steps.of_wakeAll [DecidableEq C] (cv : C) (woken : List Tid) :
    Steps s (s.wakeAll cv woken) := by
  refine ⟨.quiet (fun _ => rfl) fun u n => ?_, fun u q hq => Or.inl ?_⟩
  · simp only [St.view, St.wakeAll]
    split
    · rw [Pc.phaseAt_wake]
    · rfl
  · simp only [St.wakeAll] at hq
    split at hq
    · exact Pc.panicked_of_wake hq
    · exact hq

/-- A write through a guard changes the data only. -/
theorem Steps.of_derefMut {d : T} (h : s.derefMut t m d = some s') : Steps s s' := by
  simp only [St.derefMut] at h
  split at h
  · cases h
    refine ⟨.change t m ?_ (fun n hn => ?_) (fun _ _ _ => rfl), fun _ _ => Or.inl⟩
    · simp only [St.setMutex, Function.update_self]
      exact .data
    · simp [Function.update_of_ne hn]
  · cases h

/-- Every action is a change at one mutex, or it is quiet. -/
theorem Inv.of_step [DecidableEq C] {d : M → T} {a : Act Tid M C T} (hi : Inv s)
    (h : (threads Tid C d).step s a = some s') : Steps s s' := by
  cases a with
  | call c t m =>
    simp only [threads, St.call] at h
    split at h
    · cases h
      exact .of_setPc (phase_of_atRest ‹_›) rfl (by simp)
    · cases h
  | drop t m => exact .of_give rfl h
  | wait t cv m => exact .of_give rfl h
  | derefMut t m d => exact .of_derefMut h
  | notifyOne cv first =>
    cases first with
    | none =>
      simp only [threads, St.notifyOne] at h
      split at h
      · cases h
        exact ⟨.quiet (fun _ => rfl) (fun _ _ => rfl), fun _ _ => Or.inl⟩
      · cases h
    | some t =>
      simp only [threads, St.notifyOne] at h
      split at h
      · cases h
        exact .of_wakeAll cv [t]
      · cases h
  | notifyAll cv =>
    cases h
    exact .of_wakeAll cv _
  | spurious cv t =>
    simp only [threads, St.spurious] at h
    split at h
    · cases h
      exact .of_wakeAll cv [t]
    · cases h
  | next t => exact hi.of_next h

/-! ## Whole runs -/

/-- The only panic is that of a recursive lock. -/
def Sound (s : St Tid M C T) : Prop := ∀ t p, s.pc t = .panicked p → p = .recursive

/-- The invariants hold in every reachable state. -/
theorem Inv.of_reachable [DecidableEq C] {d : M → T} (h : (threads Tid C d).Reachable s) :
    Inv s ∧ Sound s := by
  refine h.invariant (I := fun s => Inv s ∧ Sound s)
    ⟨fun m => ?_, fun t p hp => ?_⟩ fun s a s' hs h => ?_
  · refine ⟨fun t ht => ?_, fun t _ => ⟨rfl, Or.inl rfl⟩, fun _ => rfl⟩
    cases ht
  · cases hp
  · have hstep := hs.1.of_step h
    refine ⟨hs.1.steps hstep.effect, fun t p hp => ?_⟩
    rcases hstep.panics t p hp with hp | hp
    · exact hs.2 t p hp
    · exact hp

/-! ## Mutual exclusion -/

/-- The mutex of the guard that a call of `drop` or `wait` has. A wait that is blocked, or
that is woken and does not own the mutex yet, has consumed its guard. -/
def Pc.guard : Pc M C → Option M
  | .dropStore m => some m
  | .dropUnlock m => some m
  | .waitStore _ m => some m
  | .waitBlock _ m => some m
  | .waitSet m => some m
  | _ => none

/-- The mutex whose inner lock a call of `lock` or `try_lock` has taken. -/
def Pc.attempt : Pc M C → Option M
  | .swap _ m => some m
  | .undo _ m => some m
  | _ => none

/-- The mutex whose flag the call has cleared, or has not set yet, while it has the guard. -/
def Pc.cleared : Pc M C → Option M
  | .dropUnlock m => some m
  | .waitBlock _ m => some m
  | .waitSet m => some m
  | _ => none

namespace St

variable (s : St Tid M C T) (t : Tid) (m : M)

/-- The active guards of mutex `m` that thread `t` has, in its variables or in a call. -/
def activeGuards : Nat :=
  s.guards t m + if (s.pc t).guard = some m then 1 else 0

/-- Thread `t` is between a lock of the inner mutex of `m` and the matching unlock. -/
def between : Prop :=
  0 < s.activeGuards t m ∨ (s.pc t).attempt = some m

/-- Thread `t` has a guard of `m` and is in a further attempt to lock `m`. -/
def recursive : Prop :=
  0 < s.guards t m ∧ (s.pc t).attempt = some m

instance : Decidable (s.recursive t m) := inferInstanceAs (Decidable (_ ∧ _))

end St

/-- The phases in which a call of `drop` or `wait` has its guard. -/
theorem Pc.guard_eq_some {p : Pc M C} :
    p.guard = some m ↔
      p.phaseAt m = some .store ∨ p.phaseAt m = some .release ∨ p.phaseAt m = some .set := by
  cases p <;> simp [Pc.guard, Pc.phaseAt, Pc.phase]

/-- The phases of an attempt. -/
theorem Pc.attempt_eq_some {p : Pc M C} :
    p.attempt = some m ↔ p.phaseAt m = some .swap ∨ p.phaseAt m = some .undo := by
  cases p <;> simp [Pc.attempt, Pc.phaseAt, Pc.phase]

/-- The phases in which the flag is cleared. -/
theorem Pc.cleared_eq_some {p : Pc M C} :
    p.cleared = some m ↔ p.phaseAt m = some .release ∨ p.phaseAt m = some .set := by
  cases p <;> simp [Pc.cleared, Pc.phaseAt, Pc.phase]

omit [DecidableEq Tid] in
/-- What the invariant says of the owner: it has one active guard, or it is in an attempt
to get one, or both. -/
theorem Inv.owner (h : Inv s) (ho : (s.mutex m).inner.owner = some t) :
    s.between t m ∧ s.activeGuards t m ≤ 1 ∧
    (s.mutex m).inner.count = (if s.recursive t m then 2 else 1) ∧
    (s.recursive t m → (s.mutex m).locked = true) ∧
    ((s.pc t).cleared ≠ some m →
      ((s.mutex m).locked = true ↔ 0 < s.activeGuards t m)) := by
  obtain ⟨hcount, hflag⟩ := (h m).owned t ho
  simp only [St.between, St.activeGuards, St.recursive, ne_eq, Pc.guard_eq_some,
    Pc.attempt_eq_some, Pc.cleared_eq_some]
  simp only [St.view] at hcount hflag
  -- The phase of the owner at `m` says all.
  cases hp : (s.pc t).phaseAt m with
  | none =>
    rw [hp] at hcount hflag
    simp_all [View.levels, View.Flag]
  | some f =>
    rw [hp] at hcount hflag
    cases f with
    | swap => rcases hflag with hf | hf <;> simp_all [View.levels]
    | waiting => exact hflag.elim
    | undo => simp_all [View.levels, View.Flag]
    | store => simp_all [View.levels, View.Flag]
    | release => simp_all [View.levels, View.Flag]
    | set => simp_all [View.levels, View.Flag]

omit [DecidableEq Tid] in
/-- What the invariant says of the other threads: they are not between a lock and an
unlock. -/
theorem Inv.other (h : Inv s) (ho : (s.mutex m).inner.owner ≠ some t) :
    ¬s.between t m ∧ s.activeGuards t m = 0 := by
  obtain ⟨hg, hp⟩ := (h m).others t ho
  simp only [St.view] at hg hp
  simp only [St.between, St.activeGuards, Pc.guard_eq_some, Pc.attempt_eq_some]
  rcases hp with hp | hp
  · simp [hg, hp]
  · simp [hg, hp]

/-- Mutual exclusion, in every state of every run of any number of threads over any mutexes
and condition variables.

* At most one guard of a mutex is active, over all threads.
* A thread owns the inner mutex exactly between its lock and the matching unlock.
* The inner mutex is locked once, and twice only while its owner is in a further attempt. The
  flag is set then, so the swap of that attempt rejects it.
* When no thread is between the clearing of the flag and the unlock, or between the lock at the
  end of a wait and the setting of the flag, the flag says whether there is an active guard.
* The `unwrap` of the unlock and the panic of `drop` do not happen. -/
theorem one_active_guard [DecidableEq C] {d : M → T}
    (h : (threads Tid C d).Reachable s) :
    (∀ m t u, 0 < s.activeGuards t m → 0 < s.activeGuards u m →
      t = u ∧ s.activeGuards t m = 1) ∧
    (∀ m t, (s.mutex m).inner.owner = some t ↔ s.between t m) ∧
    (∀ m t, (s.mutex m).inner.owner = some t →
      (s.mutex m).inner.count = (if s.recursive t m then 2 else 1) ∧
      (s.recursive t m → (s.mutex m).locked = true)) ∧
    (∀ m, (∀ t, (s.pc t).cleared ≠ some m) →
      ((s.mutex m).locked = true ↔ ∃ t, 0 < s.activeGuards t m)) ∧
    (∀ t, s.pc t ≠ .panicked .unlockUnwrap ∧ s.pc t ≠ .panicked .drop) := by
  obtain ⟨hi, hs⟩ := Inv.of_reachable h
  have howner : ∀ m t, 0 < s.activeGuards t m → (s.mutex m).inner.owner = some t := by
    intro m t hg
    -- A thread that does not own the inner mutex has no guard.
    by_contra hne
    exact Nat.ne_of_gt hg (hi.other hne).2
  refine ⟨fun m t u ht hu => ⟨?_, ?_⟩, fun m t => ⟨fun ho => (hi.owner ho).1, fun hb => ?_⟩,
    fun m t ho => ?_, fun m hclear => ⟨fun hl => ?_, fun hg => ?_⟩, fun t => ⟨?_, ?_⟩⟩
  · exact Option.some.inj ((howner m t ht).symm.trans (howner m u hu))
  · exact Nat.le_antisymm (hi.owner (howner m t ht)).2.1 ht
  · by_contra hne
    exact (hi.other hne).1 hb
  · obtain ⟨-, -, hcount, hrec, -⟩ := hi.owner ho
    exact ⟨hcount, hrec⟩
  · -- A set flag has an owner, and the owner has the guard.
    cases ho : (s.mutex m).inner.owner with
    | none =>
      rw [(hi m).free ho] at hl
      cases hl
    | some t => exact ⟨t, ((hi.owner ho).2.2.2.2 (hclear t)).mp hl⟩
  · obtain ⟨t, ht⟩ := hg
    exact ((hi.owner (howner m t ht)).2.2.2.2 (hclear t)).mpr ht
  · intro hp
    cases hs t _ hp
  · intro hp
    cases hs t _ hp

/-- Thread 0 waits on a condition variable, and thread 1 has locked the mutex, has
woken thread 0 and tries to lock once more: the inner mutex has two levels. -/
theorem one_active_guard_recursive :
    ∃ s, (threads (Fin 2) Unit fun _ : Unit => 0).Reachable s ∧ s.pc 0 = .reacquire () ∧
      s.pc 1 = .undo .tryLock () ∧ (s.mutex ()).inner.owner = some 1 ∧
      (s.mutex ()).inner.count = 2 := by
  obtain ⟨s, hr, hs⟩ := (threads (Fin 2) Unit fun _ : Unit => 0).reachable_of_exec
    [.call .lock 0 (), .next 0, .next 0, .wait 0 () (), .next 0, .next 0,
      .call .lock 1 (), .next 1, .next 1, .notifyAll (), .call .tryLock 1 (), .next 1, .next 1]
    (fun s => decide (s.pc 0 = .reacquire ()) && decide (s.pc 1 = .undo .tryLock ()) &&
      decide (s.guards 1 () = 1)) rfl
  simp only [Bool.and_eq_true, decide_eq_true_eq] at hs
  obtain ⟨⟨h₀, h₁⟩, hg⟩ := hs
  obtain ⟨-, howner, hcount, -⟩ := one_active_guard hr
  have hat : (s.pc 1).attempt = some () := by rw [h₁]; rfl
  have ho := (howner () 1).mpr (Or.inr hat)
  refine ⟨s, hr, h₀, h₁, ho, ?_⟩
  rw [(hcount () 1 ho).1, if_pos ⟨by omega, hat⟩]

end ZephyrRust.Sync
