import ZephyrRust.Proofs.Blocking.Exclusive

/-!
# `ZephyrRust.Proofs.Blocking.Completion`: no lost wakeup for a task whose result is there

The owner of a slot registers its waker before it reads the slot's state, and the worker
stores `Done` before it wakes the slot's waker. The waker cell stays with the slot, so a wake
that is meant for an earlier owner can reach a later one. It wakes the waker that is in the
cell, which is then the one that the later owner registered. So a late wake never loses the
registration of the owner without waking it. `Completion` is the invariant.
-/

set_option autoImplicit false

namespace ZephyrRust.Blocking

variable {c : Config} {s s' : St c} {sit : Fin c.slots → Situation c}

/-- The last poll of the future returned `Pending`, with the slot `i`, and no later poll has
registered its waker. A drop may have begun. -/
def Future.pends (F : Future c) (i : Fin c.slots) : Prop :=
  match F.pc with
  | .idle => F.slot = some i
  | .register _ j => j = i
  | .cancel j .remove => j = i
  | .cancel j .lock => j = i
  | _ => False

/-- The future has registered the waker of its last poll in slot `i`. -/
def Future.watches (F : Future c) (i : Fin c.slots) : Prop :=
  match F.pc with
  | .submit _ _ .setSlot => False
  | .submit _ _ .register => False
  | .submit _ j _ => j = i
  | .load j => j = i
  | _ => F.pends i

/-- The worker has stored `Done` for the closure of `f` in slot `i`, and has not performed
its `slot.waker.wake()`. -/
def WrkPc.notifies (p : WrkPc c) (i : Fin c.slots) (f : c.Fut) : Prop :=
  match p with
  | .finish _ j g _ (.unlock false) => j = i ∧ g = f
  | .wake j g => j = i ∧ g = f
  | _ => False

/-- The wakers of the owners of the slots. -/
structure Completion (s : St c) : Prop where
  /-- The waker of an owner is in the cell of its slot, or it was woken. -/
  registered : ∀ f i, (s.fut f).watches i → (s.obs f).woken = true ∨
    ∃ w, (s.obs f).waker = some w ∧ c.atomicWaker.stored (s.slots i).waker = some w
  /-- The owner of a slot that is `Done` was woken, or its worker is about to wake it. -/
  notified : ∀ f i, (s.fut f).pends i → (s.slots i).state = .done →
    (s.obs f).woken = true ∨ ∃ k, (s.wrk k).notifies i f

theorem Future.pends.watches {F : Future c} {i : Fin c.slots} (h : F.pends i) :
    F.watches i := by
  unfold Future.pends at h
  unfold Future.watches Future.pends
  split at h <;> simp_all

/-- A future that watches a slot owns it. -/
theorem Future.watches.owns {F : Future c} {i : Fin c.slots} (h : F.watches i) :
    F.owns = some i := by
  unfold Future.watches Future.pends at h
  unfold Future.owns
  split at h <;> simp_all
  grind

/-- A slot is watched by one future. -/
theorem Owned.watches_unique (ho : Owned s sit) {f g : c.Fut} {i : Fin c.slots}
    (hf : (s.fut f).owns = some i) (hg : (s.fut g).watches i) : g = f := by
  have := (ho.own g i hg.owns).symm.trans (ho.own f i hf)
  exact Option.some.inj this

/-! ## The operations of a future -/

/-- The slot that a future watches after an operation of its own, other than a
registration, is the one it watched before. -/
theorem FutMove.watches {f : c.Fut} (hm : FutMove s f s') (hf : Fields s)
    (hok : FutOk f (s.fut f)) {i : Fin c.slots} (hi : (s'.fut f).watches i) :
    (s'.obs f = s.obs f ∧ (s'.slots i).waker = (s.slots i).waker ∧ (s.fut f).watches i) ∨
    ∃ w, (s'.obs f).waker = some w ∧
      (s'.slots i).waker = c.atomicWaker.register (s.slots i).waker w := by
  have hslot := hf f i
  cases hm <;> simp_all [Future.watches, Future.pends, Future.owns, FutOk, FutPc.leaving]

theorem FutMove.watches_other {f g : c.Fut} (hm : FutMove s f s') (ho : Owned s sit)
    (hg : g ≠ f) {i : Fin c.slots} (hi : (s.fut g).watches i) :
    (s'.slots i).waker = (s.slots i).waker := by
  have hone : (s.fut f).owns = some i → False := fun hf => hg (ho.watches_unique hf hi)
  cases hm <;> simp [Function.update_apply] <;> simp_all [Future.owns] <;> grind

/-- The last poll of a future returned `Pending` when its slot was not `Done`. -/
theorem FutMove.pends {f : c.Fut} (hm : FutMove s f s') (hf : Fields s)
    (hok : FutOk f (s.fut f)) (ho : Owned s sit) {i : Fin c.slots} (hi : (s'.fut f).pends i)
    (hdone : (s'.slots i).state = .done) : (s.fut f).pends i ∧ s'.obs f = s.obs f := by
  have hslot := hf f i
  cases hm with
  | @send w j hpc =>
    -- The owner that has just sent the slot finds it `Queued`.
    have hown := ho.own f j (by simp [Future.owns, hpc])
    have hs := ho.slot j
    generalize sit j = q at hown hs
    cases q <;> simp_all [Future.pends, SlotInv, Situation.owner, Future.owns, Claiming,
      Waiting, Watching, Collecting, FutPc.leaving]
  | _ => simp_all [Future.pends, Future.owns, FutOk, FutPc.leaving]

/-- An operation of a future stores no `Done`. -/
theorem FutMove.done {f : c.Fut} (hm : FutMove s f s') {i : Fin c.slots}
    (hdone : (s'.slots i).state = .done) : (s.slots i).state = .done := by
  rcases hm.state i with he | ⟨-, hne⟩ | ⟨hfree, -⟩
  · rwa [← he]
  · exact absurd hdone hne
  · rw [hfree] at hdone
    cases hdone

/-- An operation of another future leaves the waker of a future that owns a slot, and can
only wake it. -/
theorem FutMove.obs_other {f g : c.Fut} (hm : FutMove s f s') (hg : g ≠ f) :
    (s'.obs g).waker = (s.obs g).waker ∧
      ((s.obs g).woken = true → (s'.obs g).woken = true) := by
  cases hm <;> simp_all

theorem FutMove.notifies {f : c.Fut} (hm : FutMove s f s') {k : Fin c.threads}
    {i : Fin c.slots} {g : c.Fut} (hk : (s.wrk k).notifies i g) : (s'.wrk k).notifies i g := by
  rcases hm.wrk k with he | ⟨hoff, -⟩
  · rwa [he]
  · simp [hoff, WrkPc.notifies] at hk

theorem Completion.futMove {f : c.Fut} (h : Completion s) (ho : Owned s sit) (hf : Fields s)
    (hm : FutMove s f s') : Completion s' where
  registered g i hi := by
    by_cases hg : g = f
    · subst hg
      -- The future registers, or it has registered before.
      rcases hm.watches hf (ho.fut g) hi with ⟨hobs, hcell, hi⟩ | ⟨w, hw, hcell⟩
      · rw [hobs, hcell]
        exact h.registered g i hi
      · exact Or.inr ⟨w, hw, by rw [hcell, c.atomicWaker.stored_register]⟩
    · rw [hm.fut_of_ne hg] at hi
      obtain ⟨hwaker, hwoken⟩ := hm.obs_other hg
      rw [hwaker, hm.watches_other ho hg hi]
      exact (h.registered g i hi).imp_left hwoken
  notified g i hi hdone := by
    have hdone' := hm.done hdone
    by_cases hg : g = f
    · subst hg
      obtain ⟨hi, hobs⟩ := hm.pends hf (ho.fut g) ho hi hdone
      rw [hobs]
      exact (h.notified g i hi hdone').imp_right fun ⟨k, hk⟩ => ⟨k, hm.notifies hk⟩
    · rw [hm.fut_of_ne hg] at hi
      exact (h.notified g i hi hdone').imp (hm.obs_other hg).2 fun ⟨k, hk⟩ =>
        ⟨k, hm.notifies hk⟩

/-! ## The operations of a worker -/

/-- An operation of a worker wakes the waker in the cell, or leaves the cell. -/
theorem WrkMove.cell {k : Fin c.threads} (hm : WrkMove s k s') (i : Fin c.slots) :
    (s'.slots i).waker = (s.slots i).waker ∨
      ∀ g w, (s.obs g).waker = some w → c.atomicWaker.stored (s.slots i).waker = some w →
        (s'.obs g).woken = true := by
  cases hm with
  | @wake j op hpc =>
    by_cases hj : i = j
    · subst hj
      refine Or.inr fun g w hw hs => ?_
      simp [hw, c.atomicWaker.wake_stored, hs]
    · exact Or.inl (by simp [hj])
  | _ => exact Or.inl (by simp [Function.update_apply] <;> grind)

/-- An operation of a worker keeps the wakers of the tasks, and can only wake them. -/
theorem WrkMove.obs {k : Fin c.threads} (hm : WrkMove s k s') (g : c.Fut) :
    (s'.obs g).waker = (s.obs g).waker ∧
      ((s.obs g).woken = true → (s'.obs g).woken = true) := by
  cases hm <;> simp_all

/-- A slot becomes `Done` when the worker that has it stores `Done` for its owner. -/
theorem WrkMove.done {k : Fin c.threads} (hm : WrkMove s k s') (ho : Owned s sit) {g : c.Fut}
    {i : Fin c.slots} (hg : (s.fut g).watches i) (hdone : (s'.slots i).state = .done) :
    (s'.wrk k).notifies i g ∨ (s.slots i).state = .done := by
  rcases hm.state i with he | ⟨-, t, op, v, hpc, hpc'⟩ | ⟨hfree, -⟩
  · exact Or.inr (he ▸ hdone)
  · -- The worker has the slot, so it runs for the owner of the slot.
    have hhold := ho.hold k i (by simp [WrkPc.holds, hpc])
    have hown := ho.own g i hg.owns
    have hs := ho.slot i
    refine Or.inl ?_
    rw [hpc']
    generalize sit i = q at hhold hown hs
    cases q <;> simp_all [SlotInv, Situation.holder, Situation.owner, Working,
      WrkPc.notifies]
  · rw [hfree] at hdone
    cases hdone

/-- A worker that has stored `Done` performs its wake, or stays before it. -/
theorem WrkMove.notifies {k l : Fin c.threads} (hm : WrkMove s k s') {g : c.Fut}
    {i : Fin c.slots} (hl : (s.wrk l).notifies i g) : (s'.wrk l).notifies i g ∨
      ∀ w, (s.obs g).waker = some w → c.atomicWaker.stored (s.slots i).waker = some w →
        (s'.obs g).woken = true := by
  by_cases hlk : l = k
  · subst hlk
    cases hm with
    | @wake j op hpc =>
      simp only [WrkPc.notifies, hpc] at hl
      obtain ⟨rfl, rfl⟩ := hl
      refine Or.inr fun w hw hs => ?_
      simp [hw, c.atomicWaker.wake_stored, hs]
    | _ => simp_all [WrkPc.notifies]
  · rw [← hm.wrk_of_ne hlk] at hl
    exact Or.inl hl

theorem Completion.wrkMove {k : Fin c.threads} (h : Completion s) (ho : Owned s sit)
    (hm : WrkMove s k s') : Completion s' := by
  have hwoken : ∀ g i, (s.fut g).watches i → (s'.slots i).waker = (s.slots i).waker ∨
      (s'.obs g).woken = true := by
    intro g i hi
    -- Either the cell keeps the waker of `g`, or that waker was woken.
    rcases hm.cell i with hc | hc
    · exact Or.inl hc
    · rcases h.registered g i hi with hw | ⟨w, hw, hs⟩
      · exact Or.inr ((hm.obs g).2 hw)
      · exact Or.inr (hc g w hw hs)
  refine ⟨fun g i hi => ?_, fun g i hi hdone => ?_⟩
  · obtain ⟨hpc, hslot⟩ := hm.fut g
    replace hi : (s.fut g).watches i := by
      rwa [Future.watches, Future.pends, hpc, hslot] at hi
    rcases hwoken g i hi with hc | hw
    · rw [hc, (hm.obs g).1]
      exact (h.registered g i hi).imp_left (hm.obs g).2
    · exact Or.inl hw
  · obtain ⟨hpc, hslot⟩ := hm.fut g
    replace hi : (s.fut g).pends i := by
      rwa [Future.pends, hpc, hslot] at hi
    rcases hm.done ho hi.watches hdone with hk | hdone'
    · exact Or.inr ⟨k, hk⟩
    · rcases h.notified g i hi hdone' with hw | ⟨l, hl⟩
      · exact Or.inl ((hm.obs g).2 hw)
      · rcases hm.notifies hl with hl' | hwake
        · exact Or.inr ⟨l, hl'⟩
        · rcases h.registered g i hi.watches with hw | ⟨w, hw, hs⟩
          · exact Or.inl ((hm.obs g).2 hw)
          · exact Or.inl (hwake w hw hs)

/-- `Completion` holds in every reachable state. -/
theorem Completion.of_reachable (h : (pool c).Reachable s) : Completion s := by
  refine (h.invariant (I := fun s => (pool c).Reachable s ∧ Completion s) ⟨.start, ?_⟩ ?_).2
  · constructor <;> simp [pool, init, Future.new, Future.watches, Future.pends]
  · rintro s a s' ⟨hr, hc⟩ hs
    refine ⟨hr.next hs, ?_⟩
    obtain ⟨-, sit, ho⟩ := Inv.of_reachable hr
    cases Move.of_step hs with
    | fut f hm => exact hc.futMove ho (Fields.of_reachable hr) hm
    | wrk k hm => exact hc.wrkMove ho hm

/-- No lost completion wakeup, in every state of every run of the pool. When slot `i` is
`Done`, `f` owns it, and the last poll of `f` returned `Pending`, the waker that this poll
registered was woken since, or the worker that stored `Done` for `f` has not performed its
`slot.waker.wake()`. -/
theorem completed_task_is_woken (h : (pool c).Reachable s) (f : c.Fut) (i : Fin c.slots)
    (hf : (s.fut f).pends i) (hdone : (s.slots i).state = .done) :
    (s.obs f).woken = true ∨ ∃ k, (s.wrk k).notifies i f :=
  (Completion.of_reachable h).notified f i hf hdone

/-- The first future of a pool with one slot begins a second poll. The worker has stored
`Done` for it, and has not performed its wake. -/
theorem completed_task_is_woken_at_done :
    ∃ s, (pool .single).Reachable s ∧ (s.fut 0).pends 0 ∧ (s.slots 0).state = .done ∧
      ((s.obs 0).woken = true ∨ ∃ k, (s.wrk k).notifies 0 0) := by
  obtain ⟨s, hr, hs⟩ := (pool .single).reachable_of_exec
    (.poll 0 0 :: (List.replicate 12 (.fut 0) ++ List.replicate 13 (.wrk 0 7) ++ [.poll 0 1]))
    (fun s => (match (s.fut 0).pc with
      | .register _ j => decide (j = 0)
      | _ => false) && decide ((s.slots 0).state = .done)) rfl
  simp only [Bool.and_eq_true, decide_eq_true_eq] at hs
  have hp : (s.fut 0).pends 0 := by
    unfold Future.pends
    split at hs <;> simp_all
  exact ⟨s, hr, hp, hs.2, completed_task_is_woken hr 0 0 hp hs.2⟩

end ZephyrRust.Blocking
