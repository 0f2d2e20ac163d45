import ZephyrRust.Proofs.Mutex

/-!
# `ZephyrRust.Proofs.Mutex.Attempt`: which attempts to lock are rejected

One call of `lock` or `try_lock` by a thread `t` from its start to its end, with all that the other
threads do in between. `Attempt` says how far the call is, and what it depends on: the guards that
`t` had at the start, and the owner that the inner lock found. The other threads do not change
a mutex that `t` owns (`Inv.frame_of_step`), so a recursive attempt finds the mutex as it was,
takes a second level of it and gives this level back.
-/

set_option autoImplicit false

namespace ZephyrRust.Sync

open ZephyrRust.Lib (System)

variable {Tid M C T : Type} [DecidableEq Tid] [DecidableEq M]
variable {s s' s₀ : St Tid M C T} {t u : Tid} {m : M} {c : Call}

/-! ## What other threads do -/

/-- What a step of `u` writes: one mutex that is free or its own, its place and its guards. -/
structure Writes (u : Tid) (s s' : St Tid M C T) : Prop where
  mutex : ∃ n x, s'.mutex = Function.update s.mutex n x ∧
    (x = s.mutex n ∨ ∀ t, (s.mutex n).inner.owner = some t → t = u)
  pc : ∃ p, s'.pc = Function.update s.pc u p
  guards : ∃ g, s'.guards = Function.update s.guards u g

/-- A step that does not write a mutex. -/
theorem Writes.of_pc {p : Pc M C} (m : M) : Writes u s (s.setPc u p) where
  mutex := ⟨m, s.mutex m, (Function.update_eq_self m s.mutex).symm, .inl rfl⟩
  pc := ⟨p, rfl⟩
  guards := ⟨s.guards u, (Function.update_eq_self u s.guards).symm⟩

/-- A step of the owner of a mutex. -/
theorem Writes.of_mutex {x : Mutex Tid T} {p : Pc M C}
    (ho : ∀ t, (s.mutex m).inner.owner = some t → t = u)
    (hmutex : s'.mutex = Function.update s.mutex m x) (hpc : s'.pc = Function.update s.pc u p)
    (hguards : ∃ g, s'.guards = Function.update s.guards u g) : Writes u s s' where
  mutex := ⟨m, x, hmutex, .inr ho⟩
  pc := ⟨p, hpc⟩
  guards := hguards

omit [DecidableEq M] in
theorem guards_self (s : St Tid M C T) (u : Tid) :
    ∃ g, s.guards = Function.update s.guards u g :=
  ⟨s.guards u, (Function.update_eq_self u s.guards).symm⟩

/-- A thread in a phase with a level is the owner. -/
theorem Inv.owner_eq (hi : Inv s) {f : Phase} (hp : (s.pc u).phase = some (m, f))
    (hf : f ≠ .waiting) (t : Tid) (ht : (s.mutex m).inner.owner = some t) : t = u := by
  have hview : s.view u m = ⟨s.guards u m, some f⟩ := by
    rw [St.view, Pc.phaseAt_of_some hp, if_pos rfl]
  exact Option.some.inj (ht.symm.trans ((hi m).in_phase hview hf).1)

omit [DecidableEq M] in
/-- A lock goes through on a mutex that is free or one's own. -/
theorem owner_eq_of_lock {k k' : Sys.Mutex Tid} (hk : k.lock u = some k') (t : Tid)
    (ht : k.owner = some t) : t = u := by
  rcases Sys.Mutex.lock_eq_some hk with ⟨ho, -⟩ | ⟨ho, -⟩
  · cases ht.symm.trans ho
  · exact Option.some.inj (ht.symm.trans ho)

variable [DecidableEq C]

theorem Inv.writes_of_next (hi : Inv s) (h : s.next u = some s') : Writes u s s' := by
  cases hpc : s.pc u with
  | idle => simp [St.next, hpc] at h
  | blocked cv m => simp [St.next, hpc] at h
  | returned r => simp [St.next, hpc] at h
  | panicked p => simp [St.next, hpc] at h
  | inner c m =>
    simp only [St.next, hpc] at h
    split at h
    · rename_i k hk
      cases h
      exact .of_mutex (owner_eq_of_lock hk) rfl rfl (guards_self s u)
    · cases c with
      | lock => cases h
      | tryLock =>
        cases h
        exact .of_pc m
  | swap c m =>
    have ho := hi.owner_eq (u := u) (m := m) (f := .swap) (by rw [hpc]; rfl) (by decide)
    simp only [St.next, hpc] at h
    split at h
    · cases h
      exact .of_mutex ho rfl rfl (guards_self s u)
    · cases h
      exact .of_mutex ho rfl rfl ⟨_, rfl⟩
  | undo c m =>
    have ho := hi.owner_eq (u := u) (m := m) (f := .undo) (by rw [hpc]; rfl) (by decide)
    simp only [St.next, hpc] at h
    split at h
    · cases c <;>
        · cases h
          exact .of_mutex ho rfl rfl (guards_self s u)
    · cases h
      exact .of_pc m
  | dropStore m =>
    have ho := hi.owner_eq (u := u) (m := m) (f := .store) (by rw [hpc]; rfl) (by decide)
    simp only [St.next, hpc] at h
    cases h
    exact .of_mutex ho rfl rfl (guards_self s u)
  | dropUnlock m =>
    have ho := hi.owner_eq (u := u) (m := m) (f := .release) (by rw [hpc]; rfl) (by decide)
    simp only [St.next, hpc] at h
    split at h
    · cases h
      exact .of_mutex ho rfl rfl (guards_self s u)
    · cases h
      exact .of_pc m
  | waitStore cv m =>
    have ho := hi.owner_eq (u := u) (m := m) (f := .store) (by rw [hpc]; rfl) (by decide)
    simp only [St.next, hpc] at h
    cases h
    exact .of_mutex ho rfl rfl (guards_self s u)
  | waitBlock cv m =>
    have ho := hi.owner_eq (u := u) (m := m) (f := .release) (by rw [hpc]; rfl) (by decide)
    simp only [St.next, hpc] at h
    cases h
    exact .of_mutex ho rfl rfl (guards_self s u)
  | reacquire m =>
    simp only [St.next, hpc] at h
    split at h
    · rename_i k hk
      cases h
      exact .of_mutex (owner_eq_of_lock hk) rfl rfl (guards_self s u)
    · cases h
  | waitSet m =>
    have ho := hi.owner_eq (u := u) (m := m) (f := .set) (by rw [hpc]; rfl) (by decide)
    simp only [St.next, hpc] at h
    cases h
    exact .of_mutex ho rfl rfl ⟨_, rfl⟩

/-- The action starts an operation of `t`. -/
def Act.starts (t : Tid) : Act Tid M C T → Bool
  | .call _ u _ | .drop u _ | .wait u _ _ | .derefMut u _ _ => decide (u = t)
  | _ => false

/-- What a step of others leaves as it is: the place and the guards of `t`, and a mutex that `t`
owns. -/
structure Frame (t : Tid) (s s' : St Tid M C T) : Prop where
  pc : s'.pc t = s.pc t
  guards : s'.guards t = s.guards t
  mutex : ∀ m, (s.mutex m).inner.owner = some t → s'.mutex m = s.mutex m

omit [DecidableEq C] in
theorem Writes.frame (h : Writes u s s') (hu : t ≠ u) : Frame t s s' := by
  obtain ⟨⟨n, x, hmutex, hx⟩, ⟨p, hpc⟩, ⟨g, hguards⟩⟩ := h
  refine ⟨?_, ?_, fun m ho => ?_⟩
  · rw [hpc, Function.update_of_ne hu]
  · rw [hguards, Function.update_of_ne hu]
  · rw [hmutex]
    by_cases hm : m = n
    · subst hm
      rw [Function.update_self]
      rcases hx with hx | hx
      · exact hx
      · exact absurd (hx t ho) hu
    · rw [Function.update_of_ne hm]

omit [DecidableEq M] in
/-- A wake-up leaves a thread that is not blocked. -/
theorem frame_of_wakeAll {cv : C} {woken : List Tid} (hpc : (s.pc t).wake = s.pc t) :
    Frame t s (s.wakeAll cv woken) := by
  refine ⟨?_, rfl, fun _ _ => rfl⟩
  simp only [St.wakeAll]
  split
  · exact hpc
  · rfl

omit [DecidableEq C] in
theorem frame_of_give {p : Pc M C} (hu : t ≠ u) (h : s.give u m p = some s') : Frame t s s' := by
  simp only [St.give] at h
  split at h
  · cases h
    exact ⟨Function.update_of_ne hu _ _, Function.update_of_ne hu _ _, fun _ _ => rfl⟩
  · cases h

omit [DecidableEq C] [DecidableEq Tid] in
/-- Only the owner has a guard to write through. -/
theorem Inv.frame_of_derefMut (hi : Inv s) {d : T} (hu : t ≠ u)
    (h : s.derefMut u m d = some s') : Frame t s s' := by
  simp only [St.derefMut] at h
  split at h
  · rename_i hg
    cases h
    refine ⟨rfl, rfl, fun n ho => ?_⟩
    by_cases hn : n = m
    · subst hn
      have hout := ((hi n).others u fun ho' => hu (Option.some.inj (ho.symm.trans ho'))).1
      have hzero : s.guards u n = 0 := hout
      omega
    · exact Function.update_of_ne hn _ _
  · cases h

theorem Inv.frame_of_step {d : M → T} {a : Act Tid M C T} (hi : Inv s)
    (h : (threads Tid C d).step s a = some s') (hstart : a.starts t = false) (hnext : a ≠ .next t)
    (hpc : (s.pc t).wake = s.pc t) : Frame t s s' := by
  cases a with
  | call c u m =>
    have hu : t ≠ u := fun heq => of_decide_eq_false hstart heq.symm
    simp only [threads, St.call] at h
    split at h
    · cases h
      exact (Writes.of_pc m).frame hu
    · cases h
  | drop u m => exact frame_of_give (fun heq => of_decide_eq_false hstart heq.symm) h
  | wait u cv m => exact frame_of_give (fun heq => of_decide_eq_false hstart heq.symm) h
  | derefMut u m d =>
    exact hi.frame_of_derefMut (fun heq => of_decide_eq_false hstart heq.symm) h
  | notifyOne cv first =>
    cases first with
    | none =>
      simp only [threads, St.notifyOne] at h
      split at h
      · cases h
        exact ⟨rfl, rfl, fun _ _ => rfl⟩
      · cases h
    | some u =>
      simp only [threads, St.notifyOne] at h
      split at h
      · cases h
        exact frame_of_wakeAll hpc
      · cases h
  | notifyAll cv =>
    cases h
    exact frame_of_wakeAll hpc
  | spurious cv u =>
    simp only [threads, St.spurious] at h
    split at h
    · cases h
      exact frame_of_wakeAll hpc
    · cases h
  | next u =>
    refine (hi.writes_of_next h).frame ?_
    rintro rfl
    exact hnext rfl

/-! ## An attempt -/

/-- How a rejected attempt ends. -/
def Call.rejection : Call → Pc M C
  | .lock => .panicked .recursive
  | .tryLock => .returned .wouldBlock

/-- An attempt of `t` that started in `s₀`. The index is the owner that the inner lock has found, or
`none` before it. -/
inductive Attempt (s₀ : St Tid M C T) (c : Call) (t : Tid) (m : M) (s : St Tid M C T) :
    Option (Option Tid) → Prop
  | before (pc : s.pc t = .inner c m) (guards : s.guards t m = s₀.guards t m)
      (same : 0 < s₀.guards t m → s.mutex m = s₀.mutex m) : Attempt s₀ c t m s none
  /-- The thread has a guard. The attempt has a second level. -/
  | recursive (pc : s.pc t = .swap c m ∨ s.pc t = .undo c m) (held : 0 < s₀.guards t m)
      (guards : s.guards t m = s₀.guards t m)
      (level : s.mutex m = { s₀.mutex m with
        inner := { (s₀.mutex m).inner with count := (s₀.mutex m).inner.count + 1 } }) :
      Attempt s₀ c t m s (some (some t))
  | rejected (pc : s.pc t = c.rejection) (held : 0 < s₀.guards t m)
      (guards : s.guards t m = s₀.guards t m) (same : s.mutex m = s₀.mutex m) :
      Attempt s₀ c t m s (some (some t))
  /-- The mutex was free. -/
  | fresh (pc : s.pc t = .swap c m) (held : s₀.guards t m = 0) (guards : s.guards t m = 0) :
      Attempt s₀ c t m s (some none)
  | accepted (pc : s.pc t = .returned (.guard m)) (held : s₀.guards t m = 0) :
      Attempt s₀ c t m s (some none)
  /-- Another thread owned the mutex. -/
  | busy (u : Tid) (other : u ≠ t) (call : c = .tryLock) (pc : s.pc t = .returned .wouldBlock)
      (held : s₀.guards t m = 0) : Attempt s₀ c t m s (some (some u))

omit [DecidableEq C] [DecidableEq M] [DecidableEq Tid] in
/-- A thread in an attempt is not blocked on a condition variable. -/
theorem Attempt.wake {o : Option (Option Tid)} (h : Attempt s₀ c t m s o) :
    (s.pc t).wake = s.pc t := by
  cases h with
  | before pc => rw [pc]; rfl
  | recursive pc => rcases pc with pc | pc <;> (rw [pc]; rfl)
  | rejected pc => rw [pc]; cases c <;> rfl
  | fresh pc => rw [pc]; rfl
  | accepted pc => rw [pc]; rfl
  | busy u _ _ pc => rw [pc]; rfl

omit [DecidableEq C] in
theorem Inv.owner_of_guards (hi : Inv s) (hg : 0 < s.guards t m) :
    (s.mutex m).inner.owner = some t := by
  refine (hi m).owner_of_not_out fun hout => ?_
  have hzero : s.guards t m = 0 := hout.1
  omega

omit [DecidableEq C] in
/-- The other threads leave an attempt where it is. -/
theorem Attempt.frame {o : Option (Option Tid)} (h : Attempt s₀ c t m s o) (hi : Inv s)
    (hf : Frame t s s') : Attempt s₀ c t m s' o := by
  have hguards : s'.guards t m = s.guards t m := congrFun hf.guards m
  have hsame : 0 < s.guards t m → s'.mutex m = s.mutex m := fun hg =>
    hf.mutex m (hi.owner_of_guards hg)
  cases h with
  | before pc guards same =>
    refine .before (hf.pc.trans pc) (hguards.trans guards) fun held => ?_
    rw [hsame (by omega), same held]
  | recursive pc held guards level =>
    refine .recursive (by rwa [hf.pc]) held (hguards.trans guards) ?_
    rw [hsame (by omega), level]
  | rejected pc held guards same =>
    refine .rejected (hf.pc.trans pc) held (hguards.trans guards) ?_
    rw [hsame (by omega), same]
  | fresh pc held guards => exact .fresh (hf.pc.trans pc) held (hguards.trans guards)
  | accepted pc held => exact .accepted (hf.pc.trans pc) held
  | busy u other call pc held => exact .busy u other call (hf.pc.trans pc) held

omit [DecidableEq C] in
/-- The inner lock. -/
theorem Attempt.lock [DecidableEq C] (h : Attempt s₀ c t m s none) (hi : Inv s)
    (hs : s.next t = some s') : Attempt s₀ c t m s' (some (s.mutex m).inner.owner) := by
  obtain ⟨pc, guards, same⟩ := h
  have hphase : (s.view t m).phase = none := by
    rw [St.view, pc]
    rfl
  cases ho : (s.mutex m).inner.owner with
  | none =>
    have hout : s.guards t m = 0 := ((hi m).others t (by simp [ho])).1
    have hk : (s.mutex m).inner.lock t = some { owner := some t, count := 1 } := by
      rw [Sys.Mutex.lock, ho]
    simp only [St.next, pc, hk] at hs
    cases hs
    exact .fresh (Function.update_self _ _ _) (by omega) hout
  | some u =>
    by_cases hu : u = t
    · subst hu
      -- The owner is in no phase at `m`, so it has a guard.
      have hflag := ((hi m).owned u ho).2
      rw [View.Flag, hphase] at hflag
      have hone : s.guards u m = 1 := hflag.1
      have hk : (s.mutex m).inner.lock u =
          some { (s.mutex m).inner with count := (s.mutex m).inner.count + 1 } := by
        simp [Sys.Mutex.lock, ho]
      simp only [St.next, pc, hk] at hs
      cases hs
      refine .recursive (.inl (Function.update_self _ _ _)) (by omega) guards ?_
      show Function.update s.mutex m _ m = _
      rw [Function.update_self, same (by omega)]
    · have hout : s.guards t m = 0 := by
        refine ((hi m).others t ?_).1
        rw [ho]
        exact fun heq => hu (Option.some.inj heq)
      have hk : (s.mutex m).inner.lock t = none := by
        rw [Sys.Mutex.lock, ho]
        exact if_neg hu
      simp only [St.next, pc, hk] at hs
      cases c with
      | lock => cases hs
      | tryLock =>
        cases hs
        exact .busy u hu rfl (Function.update_self _ _ _) (by omega)

/-- The swap and the undo. -/
theorem Attempt.next {o : Option Tid} (h : Attempt s₀ c t m s (some o)) (hi : Inv s)
    (hs : s.next t = some s') : Attempt s₀ c t m s' (some o) := by
  cases h with
  | recursive pc held guards level =>
    rcases pc with pc | pc
    · have hview : s.view t m = ⟨s.guards t m, some .swap⟩ := by
        rw [St.view, pc, Pc.phaseAt_of_some rfl, if_pos rfl]
      -- The thread has a guard, so the flag is set.
      have hflag := ((hi m).in_phase hview (by decide)).2.2
      have hlocked : (s.mutex m).locked = true := by
        rcases hflag with ⟨hzero, -⟩ | ⟨-, hlocked⟩
        · exact absurd hzero (by show s.guards t m ≠ 0; omega)
        · exact hlocked
      simp only [St.next, pc, hlocked, if_true] at hs
      cases hs
      refine .recursive (.inr (Function.update_self _ _ _)) held guards ?_
      show Function.update s.mutex m { s.mutex m with locked := true } m = _
      rw [Function.update_self, ← level, ← hlocked]
    · have hview : s.view t m = ⟨s.guards t m, some .undo⟩ := by
        rw [St.view, pc, Pc.phaseAt_of_some rfl, if_pos rfl]
      obtain ⟨ho, hcount, hone, -⟩ := (hi m).in_phase hview (by decide)
      obtain ⟨k, hk⟩ := Option.ne_none_iff_exists'.mp
        (hi.unlock_ne_none (t := t) (m := m) (f := .undo) (by rw [pc]; rfl) (by decide))
      have hlevel : k = (s₀.mutex m).inner := by
        rw [Sys.Mutex.unlock_of_lt ho (by omega) hk, level]
        rfl
      refine .rejected ?_ held ?_ ?_
      · cases c <;>
          · simp only [St.next, pc, hk] at hs
            cases hs
            exact Function.update_self _ _ _
      · rw [← guards]
        cases c <;>
          · simp only [St.next, pc, hk] at hs
            cases hs
            rfl
      · have hmutex : s'.mutex m = { s.mutex m with inner := k } := by
          cases c <;>
            · simp only [St.next, pc, hk] at hs
              cases hs
              exact Function.update_self _ _ _
        rw [hmutex, hlevel, level]
  | rejected pc => cases c <;> simp [St.next, pc, Call.rejection] at hs
  | fresh pc held guards =>
    have hview : s.view t m = ⟨s.guards t m, some .swap⟩ := by
      rw [St.view, pc, Pc.phaseAt_of_some rfl, if_pos rfl]
    have hflag := ((hi m).in_phase hview (by decide)).2.2
    have hclear : (s.mutex m).locked = false := by
      rcases hflag with ⟨-, hclear⟩ | ⟨hone, -⟩
      · exact hclear
      · exact absurd guards (by rw [show s.guards t m = 1 from hone]; decide)
    simp only [St.next, pc, hclear] at hs
    cases hs
    exact .accepted (Function.update_self _ _ _) held
  | accepted pc => simp [St.next, pc] at hs
  | busy u _ _ pc => simp [St.next, pc] at hs

/-- A step of the system, in an attempt of `t`. -/
theorem Attempt.step {d : M → T} {a : Act Tid M C T} {o : Option (Option Tid)}
    (h : Attempt s₀ c t m s o) (hi : Inv s) (hstart : a.starts t = false)
    (hs : (threads Tid C d).step s a = some s') :
    ∃ o', Attempt s₀ c t m s' o' ∧ (o ≠ none → o' = o) := by
  by_cases hnext : a = .next t
  · subst hnext
    cases o with
    | none => exact ⟨_, h.lock hi hs, fun hne => absurd rfl hne⟩
    | some o => exact ⟨some o, h.next hi hs, fun _ => rfl⟩
  · exact ⟨o, h.frame hi (hi.frame_of_step hs hstart hnext h.wake), fun _ => rfl⟩

/-- The rest of the run until `t` starts its next operation. -/
theorem Attempt.run {d : M → T} {o : Option (Option Tid)} (hr : (threads Tid C d).Reachable s)
    (h : Attempt s₀ c t m s o)
    (hrun : (threads Tid C d).LaterBy (fun a => a.starts t = false) s s') :
    ∃ o', Attempt s₀ c t m s' o' ∧ (o ≠ none → o' = o) := by
  refine System.LaterBy.stable hr hrun
    (I := fun r => ∃ o', Attempt s₀ c t m r o' ∧ (o ≠ none → o' = o)) ⟨o, h, fun _ => rfl⟩ ?_
  rintro r a r' hr hstart ⟨o', h', ho'⟩ hs
  obtain ⟨o'', h'', ho''⟩ := h'.step (Inv.of_reachable hr).1 hstart hs
  refine ⟨o'', h'', fun hne => ?_⟩
  rw [ho'' (by rw [ho' hne]; exact hne), ho' hne]

/-- A call starts an attempt. -/
theorem Attempt.of_call {d : M → T} (h : (threads Tid C d).step s (.call c t m) = some s') :
    s.activeGuards t m = s.guards t m ∧ Attempt s c t m s' none := by
  simp only [threads, St.call] at h
  split at h
  · rename_i hrest
    cases h
    refine ⟨?_, .before (Function.update_self _ _ _) rfl fun _ => rfl⟩
    have hguard : (s.pc t).guard ≠ some m := by
      rw [Ne, Pc.guard_eq_some]
      simp [Pc.phaseAt, phase_of_atRest hrest]
    rw [St.activeGuards, if_neg hguard]
    rfl
  · cases h

/-- The operations that a call of `lock` or `try_lock` still has to make, at most. -/
def Pc.remaining : Pc M C → Nat
  | .inner _ _ => 3
  | .swap _ _ => 2
  | .undo _ _ => 1
  | _ => 0

/-- The inner lock, when it does not wait. -/
theorem advances_of_inner (hpc : s.pc t = .inner c m)
    (hlock : (s.mutex m).inner.lock t ≠ none ∨ c = .tryLock) :
    ∃ s', s.next t = some s' ∧ (s'.pc t).remaining < (s.pc t).remaining := by
  rw [hpc]
  cases hk : (s.mutex m).inner.lock t with
  | some k =>
    simp only [St.next, hpc, hk]
    refine ⟨_, rfl, ?_⟩
    simp [Pc.remaining]
  | none =>
    obtain rfl : c = .tryLock := hlock.resolve_left fun hne => hne hk
    simp only [St.next, hpc, hk]
    refine ⟨_, rfl, ?_⟩
    simp [Pc.remaining]

theorem advances_of_swap (hpc : s.pc t = .swap c m) :
    ∃ s', s.next t = some s' ∧ (s'.pc t).remaining < (s.pc t).remaining := by
  rw [hpc]
  simp only [St.next, hpc]
  split <;>
    · refine ⟨_, rfl, ?_⟩
      simp [Pc.remaining]

theorem advances_of_undo (hpc : s.pc t = .undo c m) :
    ∃ s', s.next t = some s' ∧ (s'.pc t).remaining < (s.pc t).remaining := by
  rw [hpc]
  cases hk : (s.mutex m).inner.unlock t with
  | some k =>
    cases c <;>
      · simp only [St.next, hpc, hk]
        refine ⟨_, rfl, ?_⟩
        simp [Pc.remaining]
  | none =>
    simp only [St.next, hpc, hk]
    refine ⟨_, rfl, ?_⟩
    simp [Pc.remaining]

/-- A recursive attempt does not wait, and neither does `try_lock`. -/
theorem Attempt.advances {o : Option (Option Tid)} (h : Attempt s₀ c t m s o) (hi : Inv s)
    (hlock : 0 < s₀.guards t m ∨ c = .tryLock) :
    s.pc t = c.rejection ∨ s.pc t = .returned (.guard m) ∨
      ∃ s', s.next t = some s' ∧ (s'.pc t).remaining < (s.pc t).remaining := by
  cases h with
  | before pc guards same =>
    refine .inr (.inr (advances_of_inner pc ?_))
    rcases hlock with held | htry
    · refine .inl ?_
      have ho := hi.owner_of_guards (t := t) (m := m) (by omega)
      simp [Sys.Mutex.lock, ho]
    · exact .inr htry
  | recursive pc =>
    rcases pc with pc | pc
    · exact .inr (.inr (advances_of_swap pc))
    · exact .inr (.inr (advances_of_undo pc))
  | rejected pc => exact .inl pc
  | fresh pc => exact .inr (.inr (advances_of_swap pc))
  | accepted pc => exact .inr (.inl pc)
  | busy u _ call pc =>
    subst call
    exact .inl pc

/-- What a panic says of the thread: it was at the end of a recursive lock. -/
theorem Inv.panics_of_next (hi : Inv s) {p : Panic} (hs : s.next u = some s')
    (hp : s'.pc u = .panicked p) : ∃ n, s.pc u = .undo .lock n ∧ 0 < s.activeGuards u n := by
  cases hpc : s.pc u with
  | undo c n =>
    have hphase : (s.pc u).phase = some (n, .undo) := by rw [hpc]; rfl
    have hview : s.view u n = ⟨s.guards u n, some .undo⟩ := by
      rw [St.view, Pc.phaseAt_of_some hphase, if_pos rfl]
    have hone : s.guards u n = 1 := ((hi n).in_phase hview (by decide)).2.2.1
    obtain ⟨k, hk⟩ := Option.ne_none_iff_exists'.mp (hi.unlock_ne_none hphase (by decide))
    cases c with
    | lock =>
      refine ⟨n, rfl, ?_⟩
      rw [St.activeGuards]
      omega
    | tryLock =>
      simp only [St.next, hpc, hk] at hs
      cases hs
      simp at hp
  | dropUnlock n =>
    obtain ⟨k, hk⟩ := Option.ne_none_iff_exists'.mp
      (hi.unlock_ne_none (t := u) (m := n) (f := .release) (by rw [hpc]; rfl) (by decide))
    simp only [St.next, hpc, hk] at hs
    cases hs
    simp at hp
  | inner c n =>
    simp only [St.next, hpc] at hs
    split at hs
    · cases hs
      simp at hp
    · cases c with
      | lock => cases hs
      | tryLock =>
        cases hs
        simp at hp
  | swap c n =>
    simp only [St.next, hpc] at hs
    split at hs <;>
      · cases hs
        simp at hp
  | reacquire n =>
    simp only [St.next, hpc] at hs
    split at hs
    · cases hs
      simp at hp
    · cases hs
  | dropStore n | waitStore cv n | waitBlock cv n | waitSet n =>
    simp only [St.next, hpc] at hs
    cases hs
    simp at hp
  | idle => simp [St.next, hpc] at hs
  | blocked cv n => simp [St.next, hpc] at hs
  | returned r => simp [St.next, hpc] at hs
  | panicked q => simp [St.next, hpc] at hs

omit [DecidableEq C] [DecidableEq M] [DecidableEq Tid] in
/-- How a call of `lock` ends. -/
theorem Attempt.lock_ends {o : Option (Option Tid)} (h : Attempt s₀ .lock t m s o) :
    (∀ p, s.pc t = .panicked p → 0 < s₀.guards t m) ∧
      ∀ r, s.pc t = .returned r → r = .guard m ∧ s₀.guards t m = 0 := by
  cases h with
  | before pc => simp [pc]
  | recursive pc => rcases pc with pc | pc <;> simp [pc]
  | rejected pc held => simp [pc, held, Call.rejection]
  | fresh pc => simp [pc]
  | accepted pc held => simp [pc, held]
  | busy u _ call => cases call

omit [DecidableEq C] [DecidableEq M] [DecidableEq Tid] in
/-- How a call of `try_lock` ends, after an inner lock that found the owner `o`. -/
theorem Attempt.tryLock_ends {o : Option Tid} (h : Attempt s₀ .tryLock t m s (some o)) :
    (s.pc t = .returned .wouldBlock → o ≠ none) ∧ (s.pc t = .returned (.guard m) → o = none) := by
  cases h with
  | recursive pc => rcases pc with pc | pc <;> simp [pc]
  | rejected pc => simp [pc, Call.rejection]
  | fresh pc => simp [pc]
  | accepted pc => simp [pc]
  | busy u _ _ pc => simp [pc]

omit [DecidableEq C] [DecidableEq M] [DecidableEq Tid] in
/-- A thread with a guard gets no second one, and a rejected attempt leaves the mutex. -/
theorem Attempt.recursive_ends {o : Option (Option Tid)} (h : Attempt s₀ c t m s o)
    (held : 0 < s₀.guards t m) :
    s.pc t ≠ .returned (.guard m) ∧ (s.pc t = c.rejection → s.mutex m = s₀.mutex m) := by
  cases h with
  | before pc => cases c <;> simp [pc, Call.rejection]
  | recursive pc => rcases pc with pc | pc <;> cases c <;> simp [pc, Call.rejection]
  | rejected pc _ _ same => cases c <;> simp [pc, same, Call.rejection]
  | fresh _ hnone => omega
  | accepted _ hnone => omega
  | busy _ _ _ _ hnone => omega

/-- The attempts of all threads, in every run. `s₀` is the state in which `t` calls `lock` or
`try_lock`, and `s` is any state until it starts its next operation.

* `lock` panics only in a thread with an active guard, and it returns only in a thread without one.
* In a thread with an active guard, the attempt is rejected after at most three operations, none of
  which waits.
* `try_lock` does not wait. It returns `Ok` if its inner lock finds no owner, and `WouldBlock` if it
  finds one.
* A rejected attempt of a thread with an active guard leaves the mutex as it was.
* No other operation panics. -/
theorem recursion_rejected {d : M → T} {s₁ : St Tid M C T} (h₀ : (threads Tid C d).Reachable s₀)
    (hcall : (threads Tid C d).step s₀ (.call c t m) = some s₁)
    (hrun : (threads Tid C d).LaterBy (fun a => a.starts t = false) s₁ s) :
    (c = .lock → (∀ p, s.pc t = .panicked p → 0 < s₀.activeGuards t m) ∧
      ∀ r, s.pc t = .returned r → r = .guard m ∧ s₀.activeGuards t m = 0) ∧
    (0 < s₀.activeGuards t m → s.pc t = c.rejection ∨
      ∃ s', (threads Tid C d).step s (.next t) = some s' ∧
        (s'.pc t).remaining < (s.pc t).remaining) ∧
    (c = .tryLock → s.pc t = .inner .tryLock m →
      ∃ s₂, (threads Tid C d).step s (.next t) = some s₂ ∧
        ∀ s₃, (threads Tid C d).LaterBy (fun a => a.starts t = false) s₂ s₃ →
          s₃.pc t = .returned .wouldBlock ∧ (s.mutex m).inner.owner ≠ none ∨
          s₃.pc t = .returned (.guard m) ∧ (s.mutex m).inner.owner = none ∨
          ∃ s₄, (threads Tid C d).step s₃ (.next t) = some s₄ ∧
            (s₄.pc t).remaining < (s₃.pc t).remaining) ∧
    (0 < s₀.activeGuards t m → s.pc t = c.rejection → s.mutex m = s₀.mutex m) ∧
    ∀ u p s', (threads Tid C d).step s (.next u) = some s' → s'.pc u = .panicked p →
      ∃ n, s.pc u = .undo .lock n ∧ 0 < s.activeGuards u n := by
  obtain ⟨hactive, hattempt⟩ := Attempt.of_call hcall
  have hr : (threads Tid C d).Reachable s := (h₀.next hcall).later hrun.later
  have hi : Inv s := (Inv.of_reachable hr).1
  obtain ⟨o, h, -⟩ := hattempt.run (h₀.next hcall) hrun
  rw [hactive]
  refine ⟨?_, fun held => ?_, ?_, fun held => (h.recursive_ends held).2,
    fun u p s' hs hp => hi.panics_of_next hs hp⟩
  · rintro rfl
    exact h.lock_ends
  · rcases h.advances hi (.inl held) with hend | hguard | hnext
    · exact .inl hend
    · exact absurd hguard (h.recursive_ends held).1
    · exact .inr hnext
  · rintro rfl hpc
    obtain ⟨s₂, hs₂, -⟩ := advances_of_inner hpc (.inr rfl)
    refine ⟨s₂, hs₂, fun s₃ hrun₃ => ?_⟩
    -- The inner lock fixes the outcome.
    have h₂ : Attempt s₀ .tryLock t m s₂ (some (s.mutex m).inner.owner) := by
      cases h with
      | before pc guards same => exact (Attempt.before pc guards same).lock hi hs₂
      | recursive pc => rcases pc with pc | pc <;> cases hpc.symm.trans pc
      | rejected pc => cases hpc.symm.trans pc
      | fresh pc => cases hpc.symm.trans pc
      | accepted pc => cases hpc.symm.trans pc
      | busy u _ _ pc => cases hpc.symm.trans pc
    have hr₂ : (threads Tid C d).Reachable s₂ := System.Reachable.next (a := .next t) hr hs₂
    obtain ⟨o₃, h₃, ho₃⟩ := h₂.run hr₂ hrun₃
    rw [ho₃ (Option.some_ne_none _)] at h₃
    have hi₃ := (Inv.of_reachable (hr₂.later hrun₃.later)).1
    rcases h₃.advances hi₃ (.inr rfl) with hend | hguard | hnext
    · exact .inl ⟨hend, h₃.tryLock_ends.1 hend⟩
    · exact .inr (.inl ⟨hguard, h₃.tryLock_ends.2 hguard⟩)
    · exact .inr (.inr hnext)

/-- Thread 0 is in a wait and thread 1 has the mutex. Its second lock panics, and the mutex is
as before. -/
theorem recursion_rejected_after_wait :
    ∃ s₀ s : St (Fin 2) Unit Unit Nat, s₀.pc 0 = .blocked () () ∧ 0 < s₀.activeGuards 1 () ∧
      s.pc 1 = .panicked .recursive ∧ s.mutex () = s₀.mutex () := by
  obtain ⟨s₀, hr, hs⟩ := (threads (Fin 2) Unit fun _ : Unit => (0 : Nat)).reachable_of_exec
    [.call .lock 0 (), .next 0, .next 0, .wait 0 () (), .next 0, .next 0, .call .lock 1 (), .next 1,
      .next 1, .derefMut 1 () 7]
    (fun s₀ => decide (s₀.pc 0 = .blocked () ()) &&
      (((threads (Fin 2) Unit fun _ : Unit => (0 : Nat)).step s₀ (.call .lock 1 ())).bind fun s₁ =>
        (threads (Fin 2) Unit fun _ : Unit => (0 : Nat)).exec s₁ [.next 1, .next 1, .next 1]).any
          fun s : St (Fin 2) Unit Unit Nat => decide (s.pc 1 = .panicked .recursive)) rfl
  obtain ⟨hblocked, hany⟩ := Bool.and_eq_true_iff.mp hs
  obtain ⟨s, hexec, hpanic⟩ := Option.any_eq_true _ _ |>.mp hany
  obtain ⟨s₁, hcall, hrun⟩ := Option.bind_eq_some_iff.mp hexec
  have hpc := of_decide_eq_true hpanic
  obtain ⟨hlock, -, -, hsame, -⟩ :=
    recursion_rejected hr hcall (System.LaterBy.of_exec (by decide) hrun)
  have hactive := (hlock rfl).1 .recursive hpc
  exact ⟨s₀, s, of_decide_eq_true hblocked, hactive, hpc, hsame hactive hpc⟩

end ZephyrRust.Sync
