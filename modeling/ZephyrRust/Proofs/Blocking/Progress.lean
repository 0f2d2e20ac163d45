import ZephyrRust.Proofs.Blocking.Rest

/-!
# `ZephyrRust.Proofs.Blocking.Progress`: every future can complete

An executor polls a task once, and later only when it was woken (`Prompted`). From each state of
each run of the pool, such an executor can bring each future to `Ready` without a drop of any future.

The pool first comes to rest. A future that has a slot has its result there and was woken, so its
next poll completes it (`Collects`). A future without a slot claims a free one (`Seeks`). When no
slot is free, the owner of one completes first and frees it. In both cases only one future and the
workers move, and the next rest is where the argument goes on.
-/

set_option autoImplicit false

namespace ZephyrRust.Blocking

open ZephyrRust.Lib (System)
open ZephyrRust.Sys (Queue)

variable {c : Config} {s s' : St c}

/-- The steps of the pool with an executor that polls only tasks that are new or were woken, while
nobody drops a future. -/
def Prompted (s : St c) : Act c → Prop
  | .poll f _ => (s.obs f).waker = none ∨ (s.obs f).woken = true
  | .drop _ => False
  | .fut _ => True
  | .wrk _ _ => True

theorem Prompted.of_continues {a : Act c} (h : a.continues) : Prompted s a := by
  cases a with
  | poll | drop => exact h.elim
  | fut | wrk => trivial

/-- The future is in its drop. -/
def FutPc.dropping : FutPc c → Bool
  | .cancel _ _ => true
  | .discard _ _ => true
  | .dropped => true
  | _ => false

/-- A poll does not turn into a drop. -/
theorem FutMove.not_dropping {f : c.Fut} (hm : FutMove s f s') (hpc : (s.fut f).pc ≠ .idle)
    (h : (s.fut f).pc.dropping = false) : (s'.fut f).pc.dropping = false := by
  cases hm <;> simp_all [FutPc.dropping]

/-- What a poll starts with: a claim, or the slot that the future has. -/
theorem poll_cases {f : c.Fut} {w : c.Waker} (h : s.poll f w = some s') :
    (s.fut f).pc = .idle ∧ (s.fut f).ready = none ∧
      ((s.fut f).slot = none ∧ s' = s.setPc f (.claim w .lock) ∨
        ∃ i, (s.fut f).slot = some i ∧ s' = s.setPc f (.register w i)) := by
  unfold St.poll at h
  split at h
  · rename_i hpc hready hslot
    cases h
    exact ⟨hpc, hready, .inl ⟨hslot, rfl⟩⟩
  · rename_i i hpc hready hslot
    cases h
    exact ⟨hpc, hready, .inr ⟨i, hslot, rfl⟩⟩
  · cases h

/-- Without drops, a future is not dropped. -/
theorem not_dropping_step {f : c.Fut} {a : Act c} (h : (s.fut f).pc.dropping = false)
    (ha : Prompted s a) (hs : (pool c).step s a = some s') :
    (s'.fut f).pc.dropping = false := by
  cases a with
  | poll g w =>
    by_cases hgf : f = g
    · subst hgf
      obtain ⟨-, -, ⟨-, rfl⟩ | ⟨i, -, rfl⟩⟩ := poll_cases hs
      · simp [FutPc.dropping]
      · simp [FutPc.dropping]
    · rw [(FutMove.of_poll hs).fut_of_ne hgf]
      exact h
  | drop g => exact ha.elim
  | fut g =>
    by_cases hgf : f = g
    · subst hgf
      exact (FutMove.of_futStep hs).not_dropping (ne_idle_of_futStep hs) h
    · rw [(FutMove.of_futStep hs).fut_of_ne hgf]
      exact h
  | wrk k v =>
    rw [((WrkMove.of_wrkStep hs).fut f).1]
    exact h

/-! ## Between the polls -/

/-- The slot of the poll that is under way, once it is in the field. -/
def FutPc.polls : FutPc c → Option (Fin c.slots)
  | .submit _ _ .setSlot => none
  | .submit _ i _ => some i
  | .register _ i => some i
  | .load i => some i
  | _ => none

/-- The future has not claimed a slot. -/
def FutPc.unclaimed : FutPc c → Prop
  | .idle => True
  | .claim _ (.unlock (some _)) => False
  | .claim _ _ => True
  | _ => False

/-- What is known of a future between its polls. -/
structure Between (s : St c) (f : c.Fut) : Prop where
  /-- A poll that returns `Pending` with a slot leaves it in the field. -/
  slot : ∀ i, (s.fut f).pc.polls = some i → (s.fut f).slot = some i
  /-- A future that was `Ready` has no slot. -/
  finished : (s.fut f).ready ≠ none →
    (s.fut f).slot = none ∧ ((s.fut f).pc = .idle ∨ (s.fut f).pc = .dropped)
  /-- A future without a slot waits for one, or no poll of it has returned. -/
  unclaimed : (s.fut f).pc.unclaimed → (s.fut f).slot = none → (s.fut f).ready = none →
    (s.obs f).waiting = true ∨ (s.obs f).waker = none

/-- A step of the future itself. -/
theorem Between.futMove_self {f : c.Fut} (h : Between s f) (hok : FutOk f (s.fut f))
    (hm : FutMove s f s') : Between s' f := by
  obtain ⟨hslot, hfinished, hunclaimed⟩ := h
  cases hm <;> constructor <;> simp_all [FutPc.polls, FutPc.unclaimed, FutOk]

/-- A step that leaves the future, up to the cells of its `Shared`. -/
theorem Between.congr {f : c.Fut} (h : Between s f) (hpc : (s'.fut f).pc = (s.fut f).pc)
    (hslot : (s'.fut f).slot = (s.fut f).slot) (hready : (s'.fut f).ready = (s.fut f).ready)
    (hwaiting : (s'.obs f).waiting = (s.obs f).waiting)
    (hwaker : (s'.obs f).waker = (s.obs f).waker) : Between s' f := by
  obtain ⟨hpolls, hfinished, hunclaimed⟩ := h
  constructor
  · rw [hpc, hslot]
    exact hpolls
  · rw [hpc, hslot, hready]
    exact hfinished
  · rw [hpc, hslot, hready, hwaiting, hwaker]
    exact hunclaimed

/-- `Between` holds in every reachable state. -/
theorem Between.of_reachable (h : (pool c).Reachable s) (f : c.Fut) : Between s f := by
  refine (h.invariant (I := fun s => Inv s ∧ Between s f) ⟨Inv.of_reachable .start, ?_⟩ ?_).2
  · constructor <;> simp [pool, init, Future.new, FutPc.polls]
  · rintro s a s' ⟨hi, hb⟩ hs
    have hm := Move.of_step hs
    refine ⟨hi.move hm, ?_⟩
    obtain ⟨-, sit, ho⟩ := hi
    cases hm with
    | fut g hm =>
      by_cases hfg : f = g
      · subst hfg
        exact hb.futMove_self (ho.fut f) hm
      · have hfut := hm.fut_of_ne hfg
        have hwaiting : (s'.obs f).waiting = (s.obs f).waiting := by
          cases hm <;> simp [hfg]
        exact hb.congr (by rw [hfut]) (by rw [hfut]) (by rw [hfut]) hwaiting (hm.obs_other hfg).1
    | wrk k hm =>
      have hready : (s'.fut f).ready = (s.fut f).ready := by
        cases hm with
        | @takeOp t i ptr g hpc hptr | @finishResult t i op v ptr g hpc hptr =>
          by_cases hfg : f = g <;> simp [hfg]
        | _ => rfl
      have hwaiting : (s'.obs f).waiting = (s.obs f).waiting := by
        cases hm <;> rfl
      exact hb.congr (hm.fut f).1 (hm.fut f).2 hready hwaiting (hm.obs f).1

/-! ## One future moves -/

/-- No future but `f` is in a poll or a drop, and the workers wait. -/
structure Alone (s : St c) (f : c.Fut) : Prop where
  fut : ∀ g, g ≠ f → (s.fut g).pc = .idle ∨ (s.fut g).pc = .dropped
  wrk : ∀ k, s.wrk k = .recv ∨ s.wrk k = .off
  queue : s.queue = []

theorem AtRest.alone (h : AtRest s) (f : c.Fut) : Alone s f :=
  ⟨fun g _ => h.fut g, fun k => (h.wrk k).imp_right And.left, h.queue⟩

/-- Then a step that begins no poll and no drop is one of `f`. -/
theorem Alone.step {f : c.Fut} (h : Alone s f) {a : Act c} (ha : a.continues)
    (hs : (pool c).step s a = some s') : FutMove s f s' ∧ (s.fut f).pc ≠ .idle := by
  cases a with
  | poll | drop => exact ha.elim
  | fut g =>
    have hs' : s.futStep g = some s' := hs
    by_cases hgf : g = f
    · subst hgf
      exact ⟨.of_futStep hs', ne_idle_of_futStep hs'⟩
    · rcases h.fut g hgf with hpc | hpc
      · exact absurd hpc (ne_idle_of_futStep hs')
      · simp only [St.futStep, hpc] at hs'
        cases hs'
  | wrk k v =>
    have hs' : s.wrkStep k v = some s' := hs
    rcases h.wrk k with hk | hk
    · simp only [St.wrkStep, hk, h.queue, Queue.recv] at hs'
      cases hs'
    · simp only [St.wrkStep, hk] at hs'
      cases hs'

/-- A step of `f` that sends nothing and starts no worker leaves `f` alone. -/
theorem Alone.futMove {f : c.Fut} (h : Alone s f) (hm : FutMove s f s') (hqueue : s'.queue = []) :
    Alone s' f := by
  refine ⟨fun g hg => ?_, fun k => ?_, hqueue⟩
  · rw [hm.fut_of_ne hg]
    exact h.fut g hg
  · rcases hm.wrk k with he | ⟨-, hrecv⟩
    · rw [he]
      exact h.wrk k
    · exact .inl hrecv

/-- `f` collects the result from slot `i`, or it has done so and the slot is free. -/
def Collects (s : St c) (f : c.Fut) (i : Fin c.slots) : Prop :=
  match (s.fut f).pc with
  | .register _ j => j = i ∧ (s.slots i).state = .done
  | .load j => j = i ∧ (s.slots i).state = .done
  | .takeResult j => j = i ∧ (s.slots i).state = .done
  | .clearSlot j _ => j = i ∧ (s.slots i).state = .done
  | .ready _ (.store j) => j = i
  | .ready _ _ => (s.slots i).state = .free
  | .idle => (s.slots i).state = .free ∧ (s.fut f).ready ≠ none
  | .panicked => True
  | _ => False

/-- The steps of the poll that collects the result. -/
theorem Collects.futMove {f : c.Fut} {i : Fin c.slots} (h : Collects s f i) (hm : FutMove s f s')
    (hpc : (s.fut f).pc ≠ .idle) : Collects s' f i ∧ s'.queue = s.queue := by
  unfold Collects at h
  cases hm <;> simp_all [Collects]

/-- `f` looks for a slot while slot `j` is free, or it has claimed one. -/
def Seeks (s : St c) (f : c.Fut) (j : Fin c.slots) : Prop :=
  match (s.fut f).pc with
  | .claim _ .lock => (s.slots j).state = .free ∧ Alone s f
  | .claim _ (.scan n) => (s.slots j).state = .free ∧ n ≤ j ∧ Alone s f
  | .claim _ (.unlock (some _)) => True
  | .submit _ _ .setSlot => True
  | .submit _ _ _ => (s.fut f).slot ≠ none
  | .idle => (s.fut f).slot ≠ none
  | _ => False

/-- The steps of the poll that claims a slot. -/
theorem Seeks.futMove {f : c.Fut} {j : Fin c.slots} (h : Seeks s f j) (hm : FutMove s f s')
    (hpc : (s.fut f).pc ≠ .idle) : Seeks s' f j := by
  unfold Seeks at h
  cases hm with
  | @claimLock w hclaim hlock =>
    have hm := FutMove.claimLock (s := s) hclaim hlock
    rw [hclaim] at h
    simp only [Seeks, St.setPc, St.setFut, Function.update_self]
    exact ⟨h.1, Nat.zero_le _, h.2.futMove hm h.2.queue⟩
  | @claimSkip w i hclaim hstate =>
    have hm := FutMove.claimSkip (s := s) hclaim hstate
    rw [hclaim] at h
    obtain ⟨hfree, hle, halone⟩ := h
    -- The slot of the scan is not free, so it is a slot before `j`.
    have hne : (i : Nat) ≠ j := fun he => hstate (Fin.ext he ▸ hfree)
    simp only [Seeks, St.setPc, St.setFut, Function.update_self]
    exact ⟨hfree, by omega, halone.futMove hm halone.queue⟩
  | @claimEnd w i hclaim hi =>
    rw [hclaim] at h
    have hj := j.isLt
    omega
  | _ => simp_all [Seeks]

/-- Steps of others, once `f` has claimed a slot. -/
theorem Seeks.congr {f : c.Fut} {j : Fin c.slots} (h : Seeks s f j) (hnot : ¬Alone s f)
    (hpc : (s'.fut f).pc = (s.fut f).pc) (hslot : (s'.fut f).slot = (s.fut f).slot) :
    Seeks s' f j := by
  unfold Seeks at h ⊢
  rw [hpc, hslot]
  split at h <;> simp_all

/-- A step that begins no poll and no drop. -/
theorem Seeks.step {f : c.Fut} {j : Fin c.slots} (h : Seeks s f j) {a : Act c}
    (ha : a.continues) (hs : (pool c).step s a = some s') : Seeks s' f j := by
  by_cases halone : Alone s f
  · obtain ⟨hm, hpc⟩ := halone.step ha hs
    exact h.futMove hm hpc
  · cases a with
    | poll | drop => exact ha.elim
    | fut g =>
      by_cases hgf : g = f
      · subst hgf
        exact h.futMove (.of_futStep hs) (ne_idle_of_futStep hs)
      · have hfut := (FutMove.of_futStep hs).fut_of_ne (Ne.symm hgf)
        exact h.congr halone (by rw [hfut]) (by rw [hfut])
    | wrk k v =>
      have hfut := (WrkMove.of_wrkStep hs).fut f
      exact h.congr halone hfut.1 hfut.2

/-! ## From rest to rest -/

/-- The pool comes to rest. -/
theorem exists_rest (hthreads : 0 < c.threads) (v : c.Val) (hr : (pool c).Reachable s) :
    ∃ s', (pool c).LaterWhen (fun _ a => a.continues) s s' ∧ AtRest s' := by
  obtain ⟨A, hA⟩ := exists_busy hr
  obtain ⟨s', hl, hstuck⟩ := System.LaterWhen.exists_stuck (lowers_work A) hA
  exact ⟨s', hl, .of_resting hthreads (hl.reachable hr) hstuck v⟩

/-- The state of a slot with an owner. -/
theorem SlotInv.not_free {i : Fin c.slots} {q : Situation c} {f : c.Fut} (h : SlotInv s i q)
    (hq : q.owner = some f) : (s.slots i).state ≠ .free := by
  cases q with
  | free | orphaned => cases hq
  | claimed | sending | queued | removed | running | done =>
    rw [h.1]
    decide

/-- At rest the slot of a future has its result, and the task was woken. -/
theorem AtRest.of_slot (h : AtRest s) (hr : (pool c).Reachable s) {f : c.Fut} {i : Fin c.slots}
    (hpc : (s.fut f).pc = .idle) (hslot : (s.fut f).slot = some i) :
    (s.slots i).state = .done ∧ (s.obs f).woken = true := by
  obtain ⟨-, sit, ho⟩ := Inv.of_reachable hr
  have howns : ∀ g, (s.fut g).pc = .idle → (s.fut g).slot = some i → (sit i).owner = some g := by
    intro g hg hgi
    refine ho.own g i ?_
    unfold Future.owns
    rw [hg]
    exact hgi
  rcases h.slot i with hfree | ⟨hdone, g, hg, hgi, -, hwoken⟩
  · exact absurd hfree ((ho.slot i).not_free (howns f hpc hslot))
  · have hfg := (howns f hpc hslot).symm.trans (howns g hg hgi)
    cases hfg
    exact ⟨hdone, hwoken⟩

/-- A future with a slot completes, and its slot is free again. -/
theorem completes_with_slot (hthreads : 0 < c.threads) (v : c.Val) (w : c.Waker)
    (hr : (pool c).Reachable s) (h : AtRest s) {f : c.Fut} {i : Fin c.slots}
    (hpc : (s.fut f).pc = .idle) (hslot : (s.fut f).slot = some i) :
    ∃ s', (pool c).LaterWhen Prompted s s' ∧ AtRest s' ∧ (s'.fut f).ready ≠ none ∧
      (s'.slots i).state = .free := by
  obtain ⟨hdone, hwoken⟩ := h.of_slot hr hpc hslot
  have hready : (s.fut f).ready = none := by
    by_contra hne
    rw [((Between.of_reachable hr f).finished hne).1] at hslot
    cases hslot
  have hpoll : (pool c).step s (.poll f w) = some (s.setPc f (.register w i)) := by
    simp only [pool, St.poll, hpc, hready, hslot]
  have hr₁ := hr.next hpoll
  have hm := FutMove.pollAgain (w := w) hpc hslot
  obtain ⟨s', hl, hrest⟩ := exists_rest hthreads v hr₁
  have hcollects : Alone s' f ∧ Collects s' f i := by
    refine hl.stable (I := fun s => Alone s f ∧ Collects s f i)
      ⟨(h.alone f).futMove hm h.queue, ?_⟩ fun s a s' hI ha hs => ?_
    · simp only [Collects, St.setPc, St.setFut, Function.update_self]
      exact ⟨trivial, hdone⟩
    · obtain ⟨hm, hne⟩ := hI.1.step ha hs
      obtain ⟨hcollects, hqueue⟩ := hI.2.futMove hm hne
      exact ⟨hI.1.futMove hm (hqueue.trans hI.1.queue), hcollects⟩
  have hend := hcollects.2
  unfold Collects at hend
  refine ⟨s', (System.LaterWhen.single (.inr hwoken) hpoll).trans
    (hl.mono fun _ _ => .of_continues), hrest, ?_⟩
  rcases hrest.fut f with hf | hf
  · rw [hf] at hend
    exact hend.symm
  · rw [hf] at hend
    exact hend.elim

/-- A future without a slot gets one, when a slot is free. -/
theorem claims_slot (hthreads : 0 < c.threads) (v : c.Val) (w : c.Waker)
    (hr : (pool c).Reachable s) (h : AtRest s) {f : c.Fut} {j : Fin c.slots}
    (hpc : (s.fut f).pc = .idle) (hslot : (s.fut f).slot = none)
    (hready : (s.fut f).ready = none) (hfree : (s.slots j).state = .free) :
    ∃ s', (pool c).LaterWhen Prompted s s' ∧ AtRest s' ∧ (s'.fut f).pc = .idle ∧
      (s'.fut f).slot ≠ none := by
  have hpoll : (pool c).step s (.poll f w) = some (s.setPc f (.claim w .lock)) := by
    simp only [pool, St.poll, hpc, hready, hslot]
  have hprompted : Prompted s (.poll f w) := by
    have hunclaimed : (s.fut f).pc.unclaimed := by
      rw [hpc]
      trivial
    rcases (Between.of_reachable hr f).unclaimed hunclaimed hslot hready with hwait | hnew
    · exact .inr (h.waiting f j hwait hfree)
    · exact .inl hnew
  have hr₁ := hr.next hpoll
  have hm := FutMove.pollFirst (w := w) hpc hready hslot
  obtain ⟨s', hl, hrest⟩ := exists_rest hthreads v hr₁
  have hseeks : Seeks s' f j := by
    refine hl.stable (I := fun s => Seeks s f j) ?_ fun s a s' hI ha hs => hI.step ha hs
    simp only [Seeks, St.setPc, St.setFut, Function.update_self]
    exact ⟨hfree, (h.alone f).futMove hm h.queue⟩
  unfold Seeks at hseeks
  refine ⟨s', (System.LaterWhen.single hprompted hpoll).trans
    (hl.mono fun _ _ => .of_continues), hrest, ?_⟩
  rcases hrest.fut f with hf | hf
  · rw [hf] at hseeks
    exact ⟨hf, hseeks⟩
  · rw [hf] at hseeks
    exact hseeks.elim

/-- A future that is not dropped completes, when it has a slot or a slot is free. -/
theorem completes_with_free (hthreads : 0 < c.threads) (v : c.Val) (w : c.Waker)
    (hr : (pool c).Reachable s) (h : AtRest s) {f : c.Fut}
    (hf : (s.fut f).pc.dropping = false)
    (hslot : (s.fut f).slot ≠ none ∨ ∃ j, (s.slots j).state = .free) :
    ∃ s', (pool c).LaterWhen Prompted s s' ∧ (s'.fut f).ready ≠ none := by
  have hpc : (s.fut f).pc = .idle := by
    rcases h.fut f with hpc | hpc
    · exact hpc
    · rw [hpc] at hf
      cases hf
  by_cases hready : (s.fut f).ready = none
  · cases hfield : (s.fut f).slot with
    | some i =>
      obtain ⟨s', hl, -, hdone, -⟩ := completes_with_slot hthreads v w hr h hpc hfield
      exact ⟨s', hl, hdone⟩
    | none =>
      obtain ⟨j, hj⟩ := hslot.resolve_left fun hne => hne hfield
      obtain ⟨s₁, hl₁, hrest₁, hpc₁, hslot₁⟩ :=
        claims_slot hthreads v w hr h hpc hfield hready hj
      obtain ⟨i, hi⟩ := Option.ne_none_iff_exists'.mp hslot₁
      obtain ⟨s', hl', -, hdone, -⟩ :=
        completes_with_slot hthreads v w (hl₁.reachable hr) hrest₁ hpc₁ hi
      exact ⟨s', hl₁.trans hl', hdone⟩
  · exact ⟨s, .refl, hready⟩

/-- Every future can complete, from every state of every run of the pool: when the pool has a slot
and a worker, an executor that polls only tasks that are new or were woken can bring each future
that is not in its drop to `Ready`, and nobody drops a future on the way. -/
theorem every_future_completes (hslots : 0 < c.slots) (hthreads : 0 < c.threads) (v : c.Val)
    (w : c.Waker) (hr : (pool c).Reachable s) (f : c.Fut) (hf : (s.fut f).pc.dropping = false) :
    ∃ s' u, (pool c).LaterWhen Prompted s s' ∧ (s'.fut f).ready = some u := by
  have hlive : ∀ {s s'}, (pool c).LaterWhen Prompted s s' → (s.fut f).pc.dropping = false →
      (s'.fut f).pc.dropping = false := fun hl hs =>
    hl.stable (I := fun s => (s.fut f).pc.dropping = false) hs fun _ _ _ h ha hstep =>
      not_dropping_step h ha hstep
  obtain ⟨s₁, hl₁, hrest₁⟩ := exists_rest hthreads v hr
  have hl₁ := hl₁.mono (Q := Prompted) fun _ _ => .of_continues
  have hr₁ := hl₁.reachable hr
  have hf₁ := hlive hl₁ hf
  -- When the first slot is taken, its owner completes first.
  have hfree : ∃ s₂, (pool c).LaterWhen Prompted s₁ s₂ ∧ AtRest s₂ ∧
      ∃ j, (s₂.slots j).state = .free := by
    rcases hrest₁.slot ⟨0, hslots⟩ with hfree | ⟨-, g, hpc, hslot, -, -⟩
    · exact ⟨s₁, .refl, hrest₁, _, hfree⟩
    · obtain ⟨s₂, hl₂, hrest₂, -, hfree⟩ :=
        completes_with_slot hthreads v w hr₁ hrest₁ hpc hslot
      exact ⟨s₂, hl₂, hrest₂, _, hfree⟩
  obtain ⟨s₂, hl₂, hrest₂, hfree⟩ := hfree
  obtain ⟨s', hl', hdone⟩ := completes_with_free hthreads v w (hl₂.reachable hr₁) hrest₂
    (hlive hl₂ hf₁) (.inr hfree)
  obtain ⟨u, hu⟩ := Option.ne_none_iff_exists'.mp hdone
  exact ⟨s', u, (hl₁.trans hl₂).trans hl', hu⟩

/-- The second future of a pool with one slot waits, while the result of the first one is there. -/
theorem every_future_completes_waiting :
    ∃ s, (pool .single).Reachable s ∧ (s.obs 1).waiting = true ∧ (s.slots 0).state = .done ∧
      ∃ s' u, (pool .single).LaterWhen Prompted s s' ∧ (s'.fut 1).ready = some u := by
  obtain ⟨s, hr, hs⟩ := (pool .single).reachable_of_exec
    (.poll 0 0 :: (List.replicate 12 (.fut 0) ++ .poll 1 1 :: List.replicate 5 (.fut 1) ++
      List.replicate 15 (.wrk 0 7)))
    (fun s => (s.obs 1).waiting && decide ((s.slots 0).state = .done) &&
      !(s.fut 1).pc.dropping) rfl
  simp only [Bool.and_eq_true, Bool.not_eq_true', decide_eq_true_eq] at hs
  obtain ⟨⟨hwait, hdone⟩, hlive⟩ := hs
  exact ⟨s, hr, hwait, hdone,
    every_future_completes Nat.one_pos Nat.one_pos (show Nat from 7) (show Fin 2 from 1) hr 1 hlive⟩

end ZephyrRust.Blocking
