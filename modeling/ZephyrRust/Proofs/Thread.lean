import ZephyrRust.Thread

/-!
# `ZephyrRust.Proofs.Thread`: who has an entry of a pool

A call that has reserved an entry keeps it, as a call in progress, as a handle and as a thread.
`Pc.entry` is that entry, and `Fits` says what is in its memory at each place of the call. The
invariant `Inv` says that every entry is free or that exactly one call has it. A step moves one
call with its own entry, so `Inv.move` covers nearly all steps.

The isolation of the threads and the delivery of the arguments are read off the invariant. It also
shows where the reuse of entries goes wrong. An entry is allocated from its first `find_thread` on.
Nothing stores `ThreadState::Running`, so `find_thread` never asks whether the thread of an entry
has terminated.
-/

set_option autoImplicit false

namespace ZephyrRust.Thread

open ZephyrRust.Lib (System)

variable {C T : Type} {n : Nat}

/-- The entry that a call has reserved. -/
def Pc.entry : Pc n → Option (Fin n)
  | .fill id => some id
  | .create id => some id
  | .nameSet id => some id
  | .ready id => some id
  | .started id => some id
  | _ => none

/-- The thread of the call `c` in the entry `i`, with the status `st`. -/
def kthread (c : C) (i : Fin n) (st : Status T) : KThread C T n where
  owner := c
  stack := i
  arg0 := i
  status := st

/-- What the thread of a started call has in its cell, and what it has taken, at each status. -/
def Delivered (arg : T) (cell : Option T) (taken : List T) : Status T → Prop
  | .sleeping => False
  | .startup => cell = some arg ∧ taken = []
  | .body data => data = arg ∧ taken = [arg]
  | .panicked => False
  | .dead => taken = [arg]

/-- What is in the entry `i` that the call `c` with the argument `arg` has, at each place of the
call. -/
def Fits (c : C) (arg : T) (i : Fin n) (d : ThreadData C T n) (taken : List T) : Pc n → Prop
  | .fill _ => d.thread = none ∧ taken = []
  | .create _ => d.thread = none ∧ d.init = some arg ∧ taken = []
  | .nameSet _ => d.thread = some (kthread c i .sleeping) ∧ d.init = some arg ∧ taken = []
  | .ready _ => d.thread = some (kthread c i .sleeping) ∧ d.init = some arg ∧ taken = []
  | .started _ => ∃ st, d.thread = some (kthread c i st) ∧ Delivered arg d.init taken st
  | _ => True

/-- The invariant of a pool. -/
structure Inv (args : C → T) (s : St C T n) : Prop where
  /-- A free entry was never used. -/
  free : ∀ i, (s.pool i).state = .init →
    (s.pool i).thread = none ∧ ∀ c, (s.pc c).entry ≠ some i
  /-- Every other entry is allocated, and a call has it. -/
  used : ∀ i, (s.pool i).state ≠ .init →
    (s.pool i).state = .allocated ∧ ∃ c, (s.pc c).entry = some i
  /-- At most one call has an entry. -/
  unique : ∀ c c' i, (s.pc c).entry = some i → (s.pc c').entry = some i → c = c'
  fits : ∀ c i, (s.pc c).entry = some i →
    Fits c (args c) i (s.pool i) (s.taken c) (s.pc c)
  /-- A call without an entry has no thread. -/
  idle : ∀ c, (s.pc c).entry = none → s.taken c = []

namespace Inv

variable {args : C → T} {s s' : St C T n}

/-- An entry that a call has is allocated. -/
theorem allocated (h : Inv args s) {c : C} {i : Fin n} (hc : (s.pc c).entry = some i) :
    (s.pool i).state = .allocated := by
  refine (h.used i fun hi => ?_).1
  exact (h.free i hi).2 c hc

variable [DecidableEq C]

/-- The step of a call with its own entry, or with a free one that it reserves. -/
theorem move (h : Inv args s) {c : C} {i : Fin n} {d : ThreadData C T n} {p : Pc n}
    {t : List T}
    (hc : (s.pc c).entry = some i ∨ (s.pc c).entry = none ∧ (s.pool i).state = .init)
    (hp : p.entry = some i) (hd : d.state = .allocated) (hfits : Fits c (args c) i d t p) :
    Inv args
      { pool := Function.update s.pool i d
        pc := Function.update s.pc c p
        taken := Function.update s.taken c t } := by
  -- No other call has the entry, before or after the step.
  have hother : ∀ c', c' ≠ c → (s.pc c').entry ≠ some i := by
    intro c' hne hc'
    rcases hc with hc | ⟨-, hi⟩
    · exact hne (h.unique c' c i hc' hc)
    · exact (h.free i hi).2 c' hc'
  -- And the call has no other entry.
  have hown : ∀ j, j ≠ i → (s.pc c).entry ≠ some j := by
    intro j hne hj
    rcases hc with hc | ⟨hc, -⟩
    · exact hne (Option.some.inj (hj.symm.trans hc))
    · rw [hc] at hj
      cases hj
  have hentry : ∀ c' j, j ≠ i →
      ((Function.update s.pc c p c').entry = some j ↔ (s.pc c').entry = some j) := by
    intro c' j hj
    by_cases hcc : c' = c
    · subst hcc
      rw [Function.update_self, hp]
      exact iff_of_false (fun he => hj (Option.some.inj he).symm) (hown j hj)
    · rw [Function.update_of_ne hcc]
  refine ⟨fun j hj => ?_, fun j hj => ?_, fun c₁ c₂ j h₁ h₂ => ?_, fun c' j hj => ?_,
    fun c' hc' => ?_⟩
  · by_cases hji : j = i
    · subst hji
      simp only [Function.update_self, hd] at hj
      cases hj
    · simp only [Function.update_of_ne hji] at hj ⊢
      obtain ⟨hthread, hno⟩ := h.free j hj
      exact ⟨hthread, fun c' hc' => hno c' ((hentry c' j hji).mp hc')⟩
  · by_cases hji : j = i
    · subst hji
      refine ⟨by simpa using hd, c, ?_⟩
      show (Function.update s.pc c p c).entry = some j
      rw [Function.update_self, hp]
    · simp only [Function.update_of_ne hji] at hj ⊢
      obtain ⟨hstate, c', hc'⟩ := h.used j hj
      exact ⟨hstate, c', (hentry c' j hji).mpr hc'⟩
  · by_cases hji : j = i
    · subst hji
      -- Both calls are `c`.
      have hself : ∀ c', (Function.update s.pc c p c').entry = some j → c' = c := by
        intro c' hc'
        by_contra hne
        rw [Function.update_of_ne hne] at hc'
        exact hother c' hne hc'
      rw [hself c₁ h₁, hself c₂ h₂]
    · exact h.unique c₁ c₂ j ((hentry c₁ j hji).mp h₁) ((hentry c₂ j hji).mp h₂)
  · by_cases hcc : c' = c
    · subst hcc
      simp only [Function.update_self] at hj ⊢
      obtain rfl : i = j := Option.some.inj (hp.symm.trans hj)
      simpa using hfits
    · simp only [Function.update_of_ne hcc] at hj ⊢
      have hji : j ≠ i := by
        rintro rfl
        exact hother c' hcc hj
      rw [Function.update_of_ne hji]
      exact h.fits c' j hj
  · by_cases hcc : c' = c
    · subst hcc
      simp only [Function.update_self, hp] at hc'
      cases hc'
    · simp only [Function.update_of_ne hcc] at hc' ⊢
      exact h.idle c' hc'

/-- A step of a call without an entry to a place without an entry. -/
theorem setPc_idle (h : Inv args s) {c : C} {p : Pc n} (hc : (s.pc c).entry = none)
    (hp : p.entry = none) : Inv args (s.setPc c p) := by
  have hentry : ∀ c', (Function.update s.pc c p c').entry = (s.pc c').entry := by
    intro c'
    by_cases hcc : c' = c
    · subst hcc
      rw [Function.update_self, hp, hc]
    · rw [Function.update_of_ne hcc]
  refine ⟨fun j hj => ⟨(h.free j hj).1, fun c' => ?_⟩, fun j hj => ?_, fun c₁ c₂ j => ?_,
    fun c' j hj => ?_, fun c' hc' => ?_⟩
  · show (Function.update s.pc c p c').entry ≠ some j
    rw [hentry]
    exact (h.free j hj).2 c'
  · obtain ⟨hstate, c', hc'⟩ := h.used j hj
    exact ⟨hstate, c', (hentry c').trans hc'⟩
  · show (Function.update s.pc c p c₁).entry = some j →
      (Function.update s.pc c p c₂).entry = some j → c₁ = c₂
    rw [hentry, hentry]
    exact h.unique c₁ c₂ j
  · have hj' := (hentry c').symm.trans hj
    have hcc : c' ≠ c := by
      rintro rfl
      rw [hc] at hj'
      cases hj'
    show Fits c' (args c') j (s.pool j) (s.taken c') (Function.update s.pc c p c')
    rw [Function.update_of_ne hcc]
    exact h.fits c' j hj'
  · exact h.idle c' ((hentry c').symm.trans hc')

/-- The step of a call with its own entry, as a step of the model: it writes the entry and goes
on. -/
theorem setEntry (h : Inv args s) {c : C} {i : Fin n} {d : ThreadData C T n} {p : Pc n}
    (hc : (s.pc c).entry = some i) (hp : p.entry = some i)
    (hd : d.state = (s.pool i).state) (hfits : Fits c (args c) i d (s.taken c) p) :
    Inv args ((s.setEntry i d).setPc c p) := by
  have hmove := h.move (t := s.taken c) (Or.inl hc) hp (hd.trans (h.allocated hc)) hfits
  rwa [Function.update_eq_self] at hmove

omit [DecidableEq C] in
/-- `find_thread` reserves a free entry, because no entry has the state `Running`. -/
theorem findThread_init (h : Inv args s) {i : Fin n} (hf : s.findThread = some i) :
    (s.pool i).state = .init := by
  have havail : (s.pool i).available = true := by
    have hsome := List.find?_some hf
    exact hsome
  by_contra hne
  rw [ThreadData.available, (h.used i hne).1] at havail
  cases havail

omit [DecidableEq C] in
/-- The entry of a call fits the place of the call. -/
theorem place (h : Inv args s) {c : C} {i : Fin n} {p : Pc n} (hpc : s.pc c = p)
    (hp : p.entry = some i) :
    (s.pc c).entry = some i ∧ Fits c (args c) i (s.pool i) (s.taken c) p := by
  have hc : (s.pc c).entry = some i := by rw [hpc, hp]
  have hfits := h.fits c i hc
  rw [hpc] at hfits
  exact ⟨hc, hfits⟩

/-- `acquire` keeps the invariant. -/
theorem next (h : Inv args s) {c : C} (hs : s.next args c = some s') : Inv args s' := by
  unfold St.next at hs
  split at hs
  · rename_i hpc
    have hnone : (s.pc c).entry = none := by
      rw [hpc]
      rfl
    split at hs
    · rename_i id hf
      cases hs
      have hinit := h.findThread_init hf
      have hmove := h.move (c := c) (i := id) (t := s.taken c) (p := .fill id)
        (d := { s.pool id with state := .allocated }) (Or.inr ⟨hnone, hinit⟩) rfl rfl
        ⟨(h.free id hinit).1, h.idle c hnone⟩
      rwa [Function.update_eq_self] at hmove
    · cases hs
      exact h.setPc_idle hnone rfl
  · rename_i id hpc
    cases hs
    obtain ⟨hc, hfits⟩ := h.place hpc rfl
    exact h.setEntry hc rfl rfl ⟨hfits.1, rfl, hfits.2⟩
  · rename_i id hpc
    cases hs
    obtain ⟨hc, hfits⟩ := h.place hpc rfl
    exact h.setEntry hc rfl rfl ⟨rfl, hfits.2⟩
  · rename_i tid hpc
    cases hs
    obtain ⟨hc, hfits⟩ := h.place hpc rfl
    have hset := h.setEntry (p := .ready tid) hc rfl rfl hfits
    rwa [St.setEntry, Function.update_eq_self] at hset
  · cases hs

/-- `start` keeps the invariant. -/
theorem start (h : Inv args s) {c : C} (hs : s.start c = some s') : Inv args s' := by
  unfold St.start at hs
  split at hs
  · rename_i tid hpc
    obtain ⟨hc, hfits⟩ := h.place hpc rfl
    obtain ⟨hthread, hcell, htaken⟩ := hfits
    rw [hthread] at hs
    cases hs
    exact h.setEntry hc rfl rfl ⟨.startup, rfl, hcell, htaken⟩
  · cases hs

omit [DecidableEq C] in
/-- A thread is the thread of the call that has its entry. It sleeps, or the call has started it. -/
theorem thread_cases (h : Inv args s) {i : Fin n} {k : KThread C T n}
    (hk : (s.pool i).thread = some k) :
    ∃ c, (s.pc c).entry = some i ∧ k = kthread c i k.status ∧
      (k.status = .sleeping ∨
        s.pc c = .started i ∧ Delivered (args c) (s.pool i).init (s.taken c) k.status) := by
  have hstate : (s.pool i).state ≠ .init := by
    intro hi
    rw [(h.free i hi).1] at hk
    cases hk
  obtain ⟨-, c, hc⟩ := h.used i hstate
  have hfits := h.fits c i hc
  refine ⟨c, hc, ?_⟩
  cases hpc : s.pc c with
  | idle | findThread | panicked =>
    rw [hpc] at hc
    cases hc
  | fill id | create id =>
    rw [hpc, Fits, hk] at hfits
    cases hfits.1
  | nameSet id | ready id =>
    rw [hpc, Fits, hk] at hfits
    obtain rfl := Option.some.inj hfits.1
    exact ⟨rfl, Or.inl rfl⟩
  | started id =>
    rw [hpc] at hc hfits
    obtain rfl : id = i := Option.some.inj hc
    obtain ⟨st, hst, hdel⟩ := hfits
    obtain rfl := Option.some.inj (hk.symm.trans hst)
    exact ⟨rfl, Or.inr ⟨rfl, hdel⟩⟩

omit [DecidableEq C] in
/-- A thread that was woken is the thread of a call that has started it. -/
theorem of_thread (h : Inv args s) {i : Fin n} {k : KThread C T n}
    (hk : (s.pool i).thread = some k) (hsleep : k.status ≠ .sleeping) :
    ∃ c, s.pc c = .started i ∧ k = kthread c i k.status ∧
      Delivered (args c) (s.pool i).init (s.taken c) k.status := by
  obtain ⟨c, -, hkc, hcase⟩ := h.thread_cases hk
  obtain ⟨hpc, hdel⟩ := hcase.resolve_left hsleep
  exact ⟨c, hpc, hkc, hdel⟩

/-- A kernel thread that runs keeps the invariant. -/
theorem run (h : Inv args s) {tid : Fin n} (hs : s.run tid = some s') : Inv args s' := by
  unfold St.run at hs
  split at hs
  · cases hs
  · rename_i k hk
    split at hs
    · rename_i hst
      obtain ⟨c, hpc, hkc, hdel⟩ := h.of_thread hk (by rw [hst]; exact fun hc => nomatch hc)
      rw [hst] at hdel hkc
      subst hkc
      obtain ⟨hcell, htaken⟩ := hdel
      have hc : (s.pc c).entry = some tid := by
        rw [hpc]
        rfl
      simp only [kthread, hcell] at hs
      cases hs
      have hmove := h.move (c := c) (i := tid) (p := .started tid) (t := [args c])
        (d := { s.pool tid with init := none, thread := some (kthread c tid (.body (args c))) })
        (Or.inl hc) rfl (h.allocated hc) ⟨.body (args c), rfl, rfl, rfl⟩
      rw [← hpc, Function.update_eq_self] at hmove
      simpa [kthread, htaken] using hmove
    · rename_i data hst
      cases hs
      obtain ⟨c, hpc, hkc, hdel⟩ := h.of_thread hk (by rw [hst]; exact fun hc => nomatch hc)
      rw [hst] at hdel hkc
      subst hkc
      have hc : (s.pc c).entry = some tid := by
        rw [hpc]
        rfl
      have hset := h.setEntry (p := .started tid)
        (d := { s.pool tid with thread := some (kthread c tid .dead) }) hc rfl rfl
        ⟨.dead, rfl, hdel.2⟩
      rwa [St.setPc, ← hpc, St.setEntry, Function.update_eq_self] at hset
    · cases hs

/-- Every step keeps the invariant. -/
theorem step (h : Inv args s) {a : Act C n} (hs : (pool n args).step s a = some s') :
    Inv args s' := by
  cases a with
  | acquire c =>
    simp only [pool, St.acquire] at hs
    split at hs
    · rename_i hpc
      cases hs
      exact h.setPc_idle (by rw [hpc]; rfl) rfl
    · cases hs
  | next c => exact h.next hs
  | start c => exact h.start hs
  | run tid => exact h.run hs
  | join c =>
    simp only [pool, St.join] at hs
    split at hs
    · split at hs
      · cases hs
        exact h
      · cases hs
    · cases hs

/-- The invariant holds in every reachable state. -/
theorem of_reachable (h : (pool n args).Reachable s) : Inv args s := by
  refine h.invariant ?_ fun s a s' hi hs => hi.step hs
  refine ⟨fun i _ => ⟨rfl, fun c hc => (nomatch hc)⟩, fun i hi => absurd rfl hi,
    fun c c' i hc => (nomatch hc), fun c i hc => (nomatch hc), fun c _ => rfl⟩

end Inv

/-! ## Isolation and delivery -/

/-- The thread that the call `c` has acquired, in the entry `i`, has terminated. -/
def Terminated (s : St C T n) (c : C) (i : Fin n) : Prop :=
  (s.pc c).entry = some i ∧
    ∃ k, (s.pool i).thread = some k ∧ k.owner = c ∧ k.status = .dead

/-- The thread that the call `c` acquires or has acquired, in the entry `i`, has not
terminated. -/
def Live (s : St C T n) (c : C) (i : Fin n) : Prop :=
  (s.pc c).entry = some i ∧ ¬Terminated s c i

variable {args : C → T} {s s' : St C T n}

/-- The thread in an entry is the thread of the call that has the entry. -/
theorem Inv.thread_eq (h : Inv args s) {i : Fin n} {k : KThread C T n}
    (hk : (s.pool i).thread = some k) :
    (s.pc k.owner).entry = some i ∧ k = kthread k.owner i k.status := by
  obtain ⟨c, hc, hkc, -⟩ := h.thread_cases hk
  obtain rfl : k.owner = c := by
    rw [hkc]
    rfl
  exact ⟨hc, hkc⟩

variable [DecidableEq C]

/-- A `find_thread` that panics in `s` does so in a pool whose entries all belong to threads that
are acquired and have not terminated. -/
def PanicsOnlyWhenFull (args : C → T) (s : St C T n) : Prop :=
  ∀ c s', s.pc c = .findThread → s.next args c = some s' → s'.pc c = .panicked →
    ∀ i, ∃ c', Live s c' i

/-- A later `acquire` can obtain the entry of a thread that has terminated in `s`. -/
def ReusableAfterExit (args : C → T) (s : St C T n) : Prop :=
  ∀ c i, Terminated s c i → ∃ s₁ c₁ s₂, (pool n args).Later s s₁ ∧
    s₁.pc c₁ = .findThread ∧ s₁.next args c₁ = some s₂ ∧ s₂.pc c₁ = .fill i

/-- No thread of the pool has terminated. -/
def NoneTerminated (s : St C T n) : Prop := ∀ c i, ¬Terminated s c i

/-- An entry is only ever obtained while its state is `Init`. -/
theorem Inv.init_of_fill (h : Inv args s) {c : C} {i : Fin n} (hpc : s.pc c = .findThread)
    (hs : s.next args c = some s') (hpc' : s'.pc c = .fill i) : (s.pool i).state = .init := by
  simp only [St.next, hpc] at hs
  split at hs
  · rename_i id hf
    cases hs
    simp only [St.setPc, Function.update_self] at hpc'
    cases hpc'
    exact h.findThread_init hf
  · cases hs
    simp only [St.setPc, Function.update_self] at hpc'
    cases hpc'

omit [DecidableEq C] in
/-- A write to an entry that keeps its state, or allocates it, leaves an allocated entry
allocated. -/
theorem update_allocated {i j : Fin n} {d : ThreadData C T n}
    (hi : (s.pool i).state = .allocated)
    (hd : d.state = (s.pool j).state ∨ d.state = .allocated) :
    (Function.update s.pool j d i).state = .allocated := by
  by_cases hij : i = j
  · subst hij
    rw [Function.update_self]
    rcases hd with hd | hd
    · rw [hd, hi]
    · exact hd
  · rw [Function.update_of_ne hij]
    exact hi

/-- No step takes an entry back: an allocated entry stays allocated. -/
theorem state_allocated_step {i : Fin n} {a : Act C n}
    (hi : (s.pool i).state = .allocated) (hs : (pool n args).step s a = some s') :
    (s'.pool i).state = .allocated := by
  cases a with
  | acquire c =>
    simp only [pool, St.acquire] at hs
    split at hs
    · cases hs
      exact hi
    · cases hs
  | next c =>
    simp only [pool, St.next] at hs
    split at hs
    · split at hs
      · cases hs
        exact update_allocated hi (Or.inr rfl)
      · cases hs
        exact hi
    · cases hs
      exact update_allocated hi (Or.inl rfl)
    · cases hs
      exact update_allocated hi (Or.inl rfl)
    · cases hs
      exact hi
    · cases hs
  | start c =>
    simp only [pool, St.start] at hs
    split at hs
    · split at hs
      · cases hs
        exact update_allocated hi (Or.inl rfl)
      · cases hs
        exact hi
    · cases hs
  | run tid =>
    simp only [pool, St.run] at hs
    split at hs
    · cases hs
    · rename_i k hk
      split at hs
      · -- Two writes: to the cell, and to the status of the thread.
        have hcell := update_allocated (j := k.arg0)
          (d := { s.pool k.arg0 with init := none }) hi (Or.inl rfl)
        split at hs
        · cases hs
          exact update_allocated (s := s.setEntry k.arg0 _) hcell (Or.inl rfl)
        · cases hs
          exact update_allocated (s := s.setEntry k.arg0 _) hcell (Or.inl rfl)
      · cases hs
        exact update_allocated hi (Or.inl rfl)
      · cases hs
  | join c =>
    simp only [pool, St.join] at hs
    split at hs
    · split at hs
      · cases hs
        exact hi
      · cases hs
    · cases hs

omit [DecidableEq C] in
/-- A scan that finds nothing has found every entry taken by a call. -/
theorem Inv.entry_of_findThread_none (h : Inv args s) (hf : s.findThread = none) (i : Fin n) :
    ∃ c, (s.pc c).entry = some i := by
  have hun := List.find?_eq_none.mp hf i (List.mem_finRange i)
  refine (h.used i fun hi => hun ?_).2
  rw [ThreadData.available, hi]

/-- The entry of a thread that has terminated is not obtained again. -/
theorem not_reusable_of_terminated (h : (pool n args).Reachable s) {c : C} {i : Fin n}
    (ht : Terminated s c i) : ¬ReusableAfterExit args s := by
  intro hreuse
  obtain ⟨s₁, c₁, s₂, hl, hpc, hs, hpc'⟩ := hreuse c i ht
  have hinit := (Inv.of_reachable (h.later hl)).init_of_fill hpc hs hpc'
  have halloc : (s₁.pool i).state = .allocated := by
    refine hl.stable (I := fun s => (s.pool i).state = .allocated) h
      ((Inv.of_reachable h).allocated ht.1) ?_
    intro s a s' _ hi hs
    exact state_allocated_step hi hs
  rw [halloc] at hinit
  cases hinit

/-- The entries of a pool are reusable in a state of a run exactly when no thread of the pool has
terminated so far. -/
theorem reusable_iff_noneTerminated (h : (pool n args).Reachable s) :
    PanicsOnlyWhenFull args s ∧ ReusableAfterExit args s ↔ NoneTerminated s := by
  have hi := Inv.of_reachable h
  constructor
  · rintro ⟨-, hreuse⟩ c i ht
    exact not_reusable_of_terminated h ht hreuse
  · intro hnone
    refine ⟨fun c s' hpc hs hpanic i => ?_, fun c i ht => absurd ht (hnone c i)⟩
    have hf : s.findThread = none := by
      cases hf : s.findThread with
      | none => rfl
      | some id =>
        simp only [St.next, hpc, hf] at hs
        cases hs
        simp only [St.setPc, Function.update_self] at hpanic
        cases hpanic
    obtain ⟨c', hc'⟩ := hi.entry_of_findThread_none hf i
    exact ⟨c', hc', hnone c' i⟩

/-- A pool of one entry whose thread runs. A second call panics, and the thread has not
terminated. -/
theorem reusable_iff_noneTerminated_running :
    ∃ s, (pool 1 (id : Nat → Nat)).Reachable s ∧ s.pc 1 = .findThread ∧
      s.findThread = none ∧ PanicsOnlyWhenFull id s ∧ ReusableAfterExit id s := by
  obtain ⟨s, hr, hs⟩ := (pool 1 (id : Nat → Nat)).reachable_of_exec
    [.acquire 0, .next 0, .next 0, .next 0, .next 0, .start 0, .run 0, .acquire 1]
    (fun s => decide (s.pc 1 = .findThread) && decide (s.findThread = none) &&
      decide ((s.pool 0).dead = false)) rfl
  simp only [Bool.and_eq_true, decide_eq_true_eq] at hs
  obtain ⟨⟨hpc, hf⟩, hdead⟩ := hs
  have hnone : NoneTerminated s := by
    rintro c i ⟨-, k, hk, -, hst⟩
    obtain rfl : i = 0 := Subsingleton.elim i 0
    obtain ⟨owner, stack, arg0, status⟩ := k
    obtain rfl : status = .dead := hst
    simp only [ThreadData.dead, hk] at hdead
    cases hdead
  exact ⟨s, hr, hpc, hf, (reusable_iff_noneTerminated hr).mpr hnone⟩

/-- A pool of one entry whose thread was started, and has exited. The next call panics, and the
entry is not obtained again. -/
theorem exited_thread_not_reused :
    ∃ s, (pool 1 (id : Nat → Nat)).Reachable s ∧ Terminated s 0 0 ∧
      s.pc 1 = .findThread ∧ (s.next id 1).map (fun s' => s'.pc 1) = some .panicked ∧
      ¬PanicsOnlyWhenFull id s ∧ ¬ReusableAfterExit id s := by
  obtain ⟨s, hr, hs⟩ := (pool 1 (id : Nat → Nat)).reachable_of_exec
    [.acquire 0, .next 0, .next 0, .next 0, .next 0, .start 0, .run 0, .run 0, .acquire 1]
    (fun s => decide (s.pc 0 = .started 0) && decide (s.pc 1 = .findThread) &&
      decide ((s.next id 1).map (fun s' => s'.pc 1) = some .panicked) &&
      (s.pool 0).dead) rfl
  simp only [Bool.and_eq_true, decide_eq_true_eq] at hs
  obtain ⟨⟨⟨hpc₀, hpc₁⟩, hpanic⟩, hdead⟩ := hs
  have hi := Inv.of_reachable hr
  have hc₀ : (s.pc 0).entry = some 0 := by
    rw [hpc₀]
    rfl
  have hterm : Terminated s 0 0 := by
    unfold ThreadData.dead at hdead
    split at hdead
    · rename_i owner stack arg0 hk
      have hown : owner = 0 := hi.unique _ _ 0 (hi.thread_eq hk).1 hc₀
      exact ⟨hc₀, _, hk, hown, rfl⟩
    · cases hdead
  refine ⟨s, hr, hterm, hpc₁, hpanic, fun hfull => ?_, not_reusable_of_terminated hr hterm⟩
  obtain ⟨s', hs', hpc'⟩ := Option.map_eq_some_iff.mp hpanic
  obtain ⟨c', hc', hlive⟩ := hfull 1 s' hpc₁ hs' hpc' 0
  rw [hi.unique c' 0 0 hc' hc₀] at hlive
  exact hlive hterm

end ZephyrRust.Thread
