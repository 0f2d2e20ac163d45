import ZephyrRust.Proofs.Blocking.Situation

/-!
# `ZephyrRust.Proofs.Blocking.Ownership`: every slot is in exactly one situation
-/

set_option autoImplicit false

namespace ZephyrRust.Blocking

open ZephyrRust.Sys (Queue)

variable {c : Config} {s s' : St c} {sit : Fin c.slots → Situation c}

/-- A pointer addresses the future it names. -/
theorem St.deref_eq_some {t : c.Ty} {ptr : Option c.Fut} {g : c.Fut}
    (h : s.deref t ptr = some g) : ptr = some g := by
  cases ptr with
  | none => cases h
  | some f =>
    simp only [St.deref] at h
    split at h <;> simp_all

/-- A pointer to a future whose memory is there, read at the future's closure type. -/
theorem St.deref_owned {f : c.Fut} {i : Fin c.slots} (h : (s.fut f).owns = some i) :
    s.deref (c.ty f) (some f) = some f := by
  simp only [St.deref]
  split
  · rename_i hpc
    simp [Future.owns, hpc] at h
  · simp

/-- The owner of a slot that a worker has stays its owner when only the cells of its
`Shared` change. -/
theorem Watching.owns {S : Slot c} {i : Fin c.slots} {f : c.Fut} {F F' : Future c}
    (h : Watching S i f F) (hpc : F'.pc = F.pc) (hslot : F'.slot = F.slot) :
    F'.owns = some i ∧ FutOk f F' := by
  rw [Future.owns, FutOk, hpc, hslot]
  rcases h with ⟨-, hs, hw⟩ | hw <;> split at hw <;> simp_all

/-- Only the owner of the slot changes. -/
theorem Watching.updated {S : Slot c} {i : Fin c.slots} {f g : c.Fut} {F : Future c}
    (h : Watching S i f (s.fut f)) (hfut : s'.fut = Function.update s.fut f F)
    (hpc : F.pc = (s.fut f).pc) (hslot : F.slot = (s.fut f).slot) :
    s'.fut g = s.fut g ∨ (s.fut g).owns = some i ∧ (s'.fut g).owns = some i ∧
      FutOk g (s'.fut g) := by
  by_cases hg : g = f
  · subst hg
    rw [hfut, Function.update_self]
    exact Or.inr ⟨(h.owns rfl rfl).1, h.owns hpc hslot⟩
  · rw [hfut, Function.update_of_ne hg]
    exact Or.inl rfl

/-- A worker in the critical section of slot `i` finds the pointer to the owner in it, and
the owner waits or is about to take the lock in its drop. -/
theorem SlotInv.shared {f : c.Fut} {k l : Fin c.threads} {i : Fin c.slots}
    (h : SlotInv s i (.running f k)) (hl : Locked s) (hk : (s.wrk l).inSlot = some i) :
    (s.slots i).shared = some f ∧ (Waiting i (s.fut f) ∨ (s.fut f).pc = .cancel i .lock) := by
  obtain ⟨-, -, -, ⟨hs, hw⟩ | hw, -⟩ := h
  · exact ⟨hs, Or.inl hw⟩
  · -- Behind the lock operation of the drop, the drop holds the lock of the worker.
    have hout : (s.fut f).pc.inSlot ≠ some i := fun hf => hl.excludes hf hk
    unfold FutPc.inSlot at hout
    split at hw <;> simp_all

namespace Owned

/-- An operation of `f` that leaves its slot `i` in its situation. -/
theorem futStay (h : Owned s sit) {f : c.Fut} {i : Fin c.slots} {F : Future c}
    (hi : (s.fut f).owns = some i) (hF : F.owns = some i)
    (hfut : s'.fut = Function.update s.fut f F) (hwrk : s'.wrk = s.wrk)
    (hslots : ∀ j, j ≠ i → (s'.slots j).Agree (s.slots j))
    (hqueue : s'.queue = s.queue) (hexecs : s'.execs = s.execs) (hok : FutOk f F)
    (hslot : ∀ q : Situation c, q.owner = some f → SlotInv s i q → SlotInv s' i q) :
    Owned s' sit := by
  have hm := h.futAt (sit i) hi hfut hwrk hslots (fun j _ => by rw [hqueue])
    (hqueue ▸ h.nodup) hexecs (Or.inr ⟨hF, h.own f i hi⟩) rfl hok
    (hslot (sit i) (h.own f i hi) (h.slot i))
  rwa [Function.update_eq_self] at hm

/-- An operation of a future that owns no slot. -/
theorem futRest (h : Owned s sit) {f : c.Fut} {F : Future c} (hf : (s.fut f).owns = none)
    (hF : F.owns = none) (hfut : s'.fut = Function.update s.fut f F) (hwrk : s'.wrk = s.wrk)
    (hslots : ∀ j, (s'.slots j).Agree (s.slots j)) (hqueue : s'.queue = s.queue)
    (hexecs : s'.execs = s.execs) (hok : FutOk f F) : Owned s' sit := by
  refine h.rest hslots hqueue hexecs (fun g => ?_) (fun k => Or.inl (by rw [hwrk]))
  rw [hfut]
  by_cases hg : g = f
  · subst hg
    rw [Function.update_self]
    exact Or.inr ⟨hf, hF, hok⟩
  · exact Or.inl (Function.update_of_ne hg _ _)

/-- An operation of worker `k` that leaves its slot `i` in its situation. -/
theorem wrkStay (h : Owned s sit) {k : Fin c.threads} {i : Fin c.slots} {p : WrkPc c}
    (hi : (s.wrk k).holds = some i) (hp : p.holds = some i)
    (hwrk : s'.wrk = Function.update s.wrk k p)
    (hfut : ∀ g, s'.fut g = s.fut g ∨ (s.fut g).owns = some i ∧ (s'.fut g).owns = some i ∧
      FutOk g (s'.fut g))
    (hslots : ∀ j, j ≠ i → (s'.slots j).Agree (s.slots j)) (hqueue : s'.queue = s.queue)
    (hexecs : s.execs ⊆ s'.execs) (hok : WrkOk p)
    (hslot : ∀ q : Situation c, q.holder = some k → SlotInv s i q → SlotInv s' i q) :
    Owned s' sit := by
  have hm := h.wrkAt (sit i) hi hwrk hfut hslots hqueue hexecs
    (Or.inr ⟨hp, h.hold k i hi⟩) rfl hok (hslot (sit i) (h.hold k i hi) (h.slot i))
  rwa [Function.update_eq_self] at hm

/-- An operation of a worker that has no slot in its hands. -/
theorem wrkRest (h : Owned s sit) {k : Fin c.threads} {p : WrkPc c}
    (hk : (s.wrk k).holds = none) (hp : p.holds = none)
    (hwrk : s'.wrk = Function.update s.wrk k p) (hfut : s'.fut = s.fut)
    (hslots : ∀ j, (s'.slots j).Agree (s.slots j)) (hqueue : s'.queue = s.queue)
    (hexecs : s'.execs = s.execs) (hok : WrkOk p) : Owned s' sit := by
  refine h.rest hslots hqueue hexecs (fun g => Or.inl (by rw [hfut])) (fun j => ?_)
  rw [hwrk]
  by_cases hj : j = k
  · subst hj
    rw [Function.update_self]
    exact Or.inr ⟨hk, hp, hok⟩
  · exact Or.inl (Function.update_of_ne hj _ _)

/-- The situations of a slot whose state is `Free`. -/
theorem free_of_state (h : Owned s sit) {i : Fin c.slots} (hi : (s.slots i).state = .free) :
    sit i = .free := by
  have hs := h.slot i
  cases hq : sit i <;> simp_all [SlotInv]

attribute [local simp] Situation.owner Situation.holder SlotInv Claiming Loaded Waiting
  Watching Collecting Future.owns WrkPc.holds Slot.Agree.refl

/-- An operation of a future moves at most its own slot, and moves it to a situation. The
locks keep its drop and the worker of the slot apart. -/
theorem futMove {f : c.Fut} (h : Owned s sit) (hl : Locked s) (hm : FutMove s f s') :
    ∃ sit', Owned s' sit' := by
  have hok := h.fut f
  cases hm with
  | pollFirst hpc hready hslot =>
    refine ⟨sit, h.futRest (by simp [hpc, hslot]) rfl rfl rfl (fun j => .refl _) rfl rfl ?_⟩
    simp only [FutOk, hpc] at hok ⊢
    exact ⟨hslot, hok hslot hready⟩
  | @pollAgain w i hpc hslot | @dropClaimed i hpc hslot =>
    -- The owner moves on within the situation of its slot.
    refine ⟨sit, h.futStay (i := i) (by simp [hpc, hslot]) rfl rfl rfl
      (fun j _ => .refl _) rfl rfl trivial (fun q ho hs => ?_)⟩
    cases q <;> simp_all
  | dropUnclaimed hpc hslot =>
    exact ⟨sit, h.futRest (by simp [hpc, hslot]) rfl rfl rfl (fun j => .refl _) rfl rfl
      trivial⟩
  | claimLock hpc hlock | claimSkip hpc hstate | claimEnd hpc hi | claimRegister hpc
  | readyLock hpc hlock | readyWake hpc =>
    -- A future without a slot takes no part in any situation.
    refine ⟨sit, h.futRest (by simp [hpc]) rfl rfl rfl (fun j => .refl _) rfl rfl ?_⟩
    simpa [FutOk, hpc] using hok
  | @claimTake w i hpc hstate =>
    -- Free to claimed. No party refers to a free slot.
    simp only [FutOk, hpc] at hok
    have hs := h.slot i
    rw [h.free_of_state hstate] at hs
    refine ⟨_, h.move i (.claimed f) (fun j hj => by simp [hj]) (fun j _ => Iff.rfl) h.nodup
      (by simp) (fun g => ?_) (fun k => Or.inl rfl) (fun g hg => ?_) (fun k hk => ?_) ?_⟩
    · by_cases hg : g = f
      · subst hg
        exact Or.inr ⟨by simp [hpc], by simp, by simp [FutOk]⟩
      · exact Or.inl (by simp [hg])
    · by_cases hg' : g = f
      · rw [hg']
        rfl
      · -- A free slot has no other owner.
        have := h.own g i (by simpa [hg'] using hg)
        simp [h.free_of_state hstate] at this
    · have := h.hold k i hk
      simp [h.free_of_state hstate] at this
    · simpa using ⟨hs.2, hok.2⟩
  | claimNone hpc =>
    refine ⟨sit, h.futRest (by simp [hpc]) ?_ rfl rfl (fun j => .refl _) rfl rfl ?_⟩
    · simp only [FutOk, hpc] at hok
      simp [hok.1]
    · simp only [FutOk, hpc] at hok ⊢
      exact fun _ _ => hok.2
  | @claimSome w i hpc | @setSlot w i hpc | @startedBefore w i hpc hstarted
  | @startOnce w i hpc hstarted | @startRunning w i k hpc | @startEnd w i k hpc
  | @loadDone i hpc hstate | @takeResult i v hpc hresult | @clearSlot i v hpc
  | @cancelMissed i hpc hmem | @cancelDone i hpc hstate | @cancelLoad i hpc hstate =>
    -- The owner moves on within the situation of its slot, whichever it is.
    refine ⟨sit, h.futStay (i := i) (by simp [hpc]) rfl rfl rfl (fun j _ => .refl _) rfl rfl
      trivial (fun q ho hs => ?_)⟩
    cases q <;> simp_all
  | @registerFirst w i hpc | @setShared w i hpc | @setRunner w i hpc | @register w i hpc
  | @cancelLock i hpc hlock | @cancelClear i hpc | @cancelFinished i hpc =>
    -- The owner writes a field of its own slot.
    refine ⟨sit, h.futStay (i := i) (by simp [hpc]) rfl rfl rfl (fun j hj => by simp [hj])
      rfl rfl trivial (fun q ho hs => ?_)⟩
    cases q <;> simp_all
  | @startWorker w i k hpc hoff =>
    -- Two parties move here: the owner, and the worker that it starts.
    have hi : (s.fut f).owns = some i := by simp [hpc]
    have hown := h.own f i hi
    refine ⟨_, h.move i (sit i) (fun j _ => .refl _) (fun j _ => Iff.rfl) h.nodup (by simp)
      (fun g => ?_) (fun j => ?_) (fun g hg => ?_) (fun j hj => ?_) ?_⟩
    · by_cases hg : g = f
      · subst hg
        exact Or.inr ⟨by simp [hpc], by simp, by simp [FutOk]⟩
      · exact Or.inl (by simp [hg])
    · by_cases hj : j = k
      · subst hj
        exact Or.inr ⟨by simp [hoff], by simp, by simp [WrkOk]⟩
      · exact Or.inl (by simp [hj])
    · refine h.own g i ?_
      by_cases hg' : g = f
      · rw [hg', hi]
      · simpa [hg'] using hg
    · refine h.hold j i ?_
      by_cases hj' : j = k
      · simp [hj'] at hj
      · simpa [hj'] using hj
    · have hs := h.slot i
      generalize sit i = q at hown hs
      cases q <;> simp_all
  | @storeQueued w i hpc =>
    -- Claimed to sending.
    have hown := h.own f i (by simp [hpc])
    have hs := h.slot i
    refine ⟨_, h.futAt (i := i) (.sending f) (by simp [hpc]) rfl rfl
      (fun j hj => by simp [hj]) (fun j _ => Iff.rfl) h.nodup rfl (by simp) ?_ trivial ?_⟩ <;>
    · generalize sit i = q at hown hs
      cases q <;> simp_all
  | @send w i hpc =>
    -- Sending to queued. A slot that is about to be sent is not in the queue.
    have hown := h.own f i (by simp [hpc])
    have hs := h.slot i
    refine ⟨_, h.futAt (i := i) (.queued f) (by simp [hpc]) rfl rfl
      (fun j _ => .refl _) (fun j hj => by simp [hj]) ?_ rfl ?_ ?_ ?_ ?_⟩
    · have hi : i ∉ s.queue := by
        generalize sit i = q at hown hs
        cases q <;> simp_all
      exact Queue.nodup_send h.nodup hi
    all_goals
      generalize sit i = q at hown hs
      cases q <;> simp_all [FutOk]
  | @loadPending i hpc hstate =>
    have hown := h.own f i (by simp [hpc])
    have hs := h.slot i
    have hslot : (s.fut f).slot = some i := by
      generalize sit i = q at hown hs
      cases q <;> simp_all
    refine ⟨sit, h.futStay (i := i) (by simp [hpc]) (by simpa using hslot) rfl rfl
      (fun j _ => .refl _) rfl rfl ?_ (fun q ho hs => ?_)⟩
    · simp [FutOk, hslot]
    · cases q <;> simp_all
  | @takePanic i hpc hresult =>
    -- The result of a slot that is `Done` is in its cell, so the `expect` succeeds.
    have hown := h.own f i (by simp [hpc])
    have hs := h.slot i
    generalize sit i = q at hown hs
    cases q <;> simp_all
  | @readyStore v i hpc =>
    -- Done to free.
    have hown := h.own f i (by simp [hpc])
    have hs := h.slot i
    refine ⟨_, h.futAt (i := i) .free (by simp [hpc]) rfl rfl (fun j hj => by simp [hj])
      (fun j _ => Iff.rfl) h.nodup rfl (Or.inl rfl) ?_ ?_ ?_⟩ <;>
    · generalize sit i = q at hown hs
      cases q <;> simp_all [FutOk]
  | @readyUnlock v hpc =>
    simp only [FutOk, hpc] at hok
    refine ⟨sit, h.futRest (by simp [hpc]) (by simpa using hok) rfl rfl (fun j => .refl _)
      rfl rfl ?_⟩
    simp [FutOk]
  | @cancelRemoved i hpc hmem =>
    -- Queued to removed.
    have hown := h.own f i (by simp [hpc])
    have hs := h.slot i
    have hnot := h.nodup.not_mem_erase (a := i)
    refine ⟨_, h.futAt (i := i) (.removed f) (by simp [hpc]) rfl rfl (fun j _ => .refl _)
      (fun j hj => List.mem_erase_of_ne hj) (h.nodup.erase i) rfl (by simp) ?_ trivial ?_⟩ <;>
    · generalize sit i = q at hown hs
      cases q <;> simp_all
  | @cancelStore i hpc =>
    have hown := h.own f i (by simp [hpc])
    have hs := h.slot i
    cases hq : sit i with
    | running g k =>
      rw [hq] at hown hs
      cases hown
      obtain ⟨-, hque, hrun, -, hwork⟩ := hs
      -- The drop holds the slot's lock, so the worker is outside its critical sections.
      have hout : (s.wrk k).inSlot = none := by
        by_contra hin
        obtain ⟨j, hj⟩ := Option.ne_none_iff_exists'.mp hin
        exact hl.excludes (f := f) (by simp [FutPc.inSlot, hpc]) (hwork.inSlot hj ▸ hj)
      refine ⟨_, h.futAt (i := i) (.orphaned k) (by simp [hpc]) rfl rfl
        (fun j hj => by simp [hj]) (fun j _ => Iff.rfl) h.nodup rfl (Or.inl rfl)
        (by simp [hq]) trivial ?_⟩
      refine ⟨by simp, hque, hwork.abandon hout ?_⟩
      simp [hrun]
    | _ =>
      simp_all
  | @cancelOrphaned i hpc =>
    refine ⟨sit, h.futRest (by simp [hpc]) rfl rfl rfl (fun j => ?_) rfl rfl trivial⟩
    exact .of_update rfl ⟨rfl, rfl, rfl⟩
  | @discardStore b i hpc =>
    -- Removed or done to free.
    have hown := h.own f i (by simp [hpc])
    have hs := h.slot i
    refine ⟨_, h.futAt (i := i) .free (by simp [hpc]) rfl rfl (fun j hj => by simp [hj])
      (fun j _ => Iff.rfl) h.nodup rfl (Or.inl rfl) ?_ trivial ?_⟩ <;>
    · generalize sit i = q at hown hs
      cases q <;> simp_all
  | discardLock hpc hlock | discardWake hpc | discardUnlock hpc =>
    exact ⟨sit, h.futRest (by simp [hpc]) rfl rfl rfl (fun j => .refl _) rfl rfl trivial⟩

/-- The situation of a queued slot. -/
theorem queued_of_mem (h : Owned s sit) {i : Fin c.slots} (hi : i ∈ s.queue) :
    ∃ f, sit i = .queued f := by
  have hs := h.slot i
  cases hq : sit i <;> simp_all

/-- An operation of a worker moves at most the slot that it has, and moves it to a
situation. The locks keep it and the drop of the owner apart. -/
theorem wrkMove {k : Fin c.threads} (h : Owned s sit) (hl : Locked s)
    (hm : WrkMove s k s') : ∃ sit', Owned s' sit' := by
  cases hm with
  | @recv i rest hpc hqueue =>
    -- Queued to running.
    obtain ⟨f, hq⟩ := h.queued_of_mem (i := i) (by simp [hqueue])
    have hs := h.slot i
    have hnd := h.nodup
    rw [hqueue, List.nodup_cons] at hnd
    rw [hq] at hs
    refine ⟨_, h.move i (.running f k) (fun j _ => .refl _) (fun j hj => by simp [hqueue, hj])
      hnd.2 (by simp) (fun g => Or.inl rfl) (fun j => ?_) (fun g hg => ?_) (fun j hj => ?_) ?_⟩
    · by_cases hj : j = k
      · subst hj
        exact Or.inr ⟨by simp [hpc], by simp, by simp [WrkOk]⟩
      · exact Or.inl (by simp [hj])
    · have := h.own g i hg
      simpa [hq] using this
    · by_cases hj' : j = k
      · rw [hj']
        rfl
      · have := h.hold j i (by simpa [hj'] using hj)
        simp [hq] at this
    · simp_all [Working]
  | @runner i t hpc hrunner | @takeOrphaned t i hpc hstate | @takeLoad t i hpc hstate
  | @exec t i op v hpc | @finishOrphaned t i op v hpc hstate | @finishLoad t i op v hpc hstate =>
    refine ⟨sit, h.wrkStay (i := i) (by simp [hpc]) rfl rfl (fun g => Or.inl rfl)
      (fun j _ => .refl _) rfl (by simp) trivial (fun q ho hs => ?_)⟩
    cases q <;> simp_all [Working, Abandoned]
  | @runnerPanic i hpc hrunner =>
    -- The owner has set the runner before it sent the slot.
    have hown := h.hold k i (by simp [hpc])
    have hs := h.slot i
    generalize sit i = q at hown hs
    cases q <;> simp_all [Abandoned]
  | @takeLock t i hpc hlock | @takeNone t i hpc | @takeSome t i op hpc
  | @finishLock t i op v hpc hlock | @finishAbandon t i op v hpc =>
    refine ⟨sit, h.wrkStay (i := i) (by simp [hpc]) rfl rfl (fun g => Or.inl rfl)
      (fun j hj => by simp [hj]) rfl (by simp) trivial (fun q ho hs => ?_)⟩
    cases q <;> simp_all [Working, Abandoned]
  | @takeShared t i hpc | @finishShared t i op v hpc =>
    -- Under the lock, the pointer is the one to the live owner.
    refine ⟨sit, h.wrkStay (i := i) (by simp [hpc]) rfl rfl (fun g => Or.inl rfl)
      (fun j _ => .refl _) rfl (by simp) trivial (fun q ho hs => ?_)⟩
    cases q with
    | running f k' =>
      have hsh := hs.shared hl (l := k) (i := i) (by simp [WrkPc.inSlot, hpc])
      simp_all [Working]
    | _ => simp_all [Abandoned]
  | @takeFault t i ptr hpc hptr | @finishFault t i op v ptr hpc hptr =>
    -- The pointer addresses the live owner at its closure type, so it is no fault.
    have hhold := h.hold k i (by simp [hpc])
    have hs := h.slot i
    have hown : ∀ f, (sit i).owner = some f → (s.fut f).owns = some i := fun f => hs.owns
    generalize sit i = q at hhold hs hown
    cases q with
    | running f k' =>
      have hd := s.deref_owned (hown f rfl)
      simp_all [Working]
    | _ => simp_all [Abandoned]
  | @takeOp t i ptr g hpc hptr =>
    -- The closure leaves its cell. The owner stays where it is in its code.
    have hg := s.deref_eq_some hptr
    have hhold := h.hold k i (by simp [hpc])
    have hs := h.slot i
    cases hq : sit i with
    | running f k' =>
      rw [hq] at hhold hs
      cases hhold
      obtain ⟨hst, hqu, hr, hwatch, hwork⟩ := hs
      simp only [Working, hpc] at hwork
      obtain ⟨-, ht, hp, hop, hres⟩ := hwork
      cases hp.symm.trans hg
      refine ⟨_, h.wrkAt (i := i) (.running g k) (by simp [hpc]) rfl (fun g' => ?_)
        (fun j _ => .refl _) rfl (by simp) (by simp) (by simp [hq]) trivial ?_⟩
      · exact hwatch.updated rfl rfl rfl
      · simpa [hst, hqu, hr, ht, hop, hres, Working] using hwatch
    | _ => simp_all [Abandoned]
  | @finishResult t i op v ptr g hpc hptr =>
    have hg := s.deref_eq_some hptr
    have hhold := h.hold k i (by simp [hpc])
    have hs := h.slot i
    cases hq : sit i with
    | running f k' =>
      rw [hq] at hhold hs
      cases hhold
      obtain ⟨hst, hqu, hr, hwatch, hwork⟩ := hs
      simp only [Working, hpc] at hwork
      obtain ⟨-, ht, hop, hnone, hex, hres, hp⟩ := hwork
      cases hp.symm.trans hg
      refine ⟨_, h.wrkAt (i := i) (.running g k) (by simp [hpc]) rfl (fun g' => ?_)
        (fun j _ => .refl _) rfl (by simp) (by simp) (by simp [hq]) trivial ?_⟩
      · exact hwatch.updated rfl rfl rfl
      · simpa [hst, hqu, hr, ht, hop, hnone, hex, Working] using hwatch
    | _ => simp_all [Abandoned]
  | @finishStore t i op v hpc =>
    -- Running to done.
    have hhold := h.hold k i (by simp [hpc])
    have hs := h.slot i
    cases hq : sit i with
    | running f k' =>
      rw [hq] at hhold hs
      have hsh := hs.shared hl (l := k) (i := i) (by simp [WrkPc.inSlot, hpc])
      refine ⟨_, h.wrkAt (i := i) (.done f) (by simp [hpc]) rfl (fun g => Or.inl rfl)
        (fun j hj => by simp [hj]) rfl (by simp) (Or.inl rfl) (by simp [hq]) trivial ?_⟩
      rcases hsh with ⟨-, hw | hw⟩ <;> simp_all [Working]
    | _ => simp_all [Abandoned]
  | @finishUnlock t i op v hpc | @wake i op hpc =>
    refine ⟨sit, h.wrkRest (by simp [hpc]) rfl rfl rfl (fun j => ?_) rfl rfl trivial⟩
    exact .of_update rfl ⟨rfl, rfl, rfl⟩
  | @releaseStore i hpc =>
    -- Orphaned to free.
    have hhold := h.hold k i (by simp [hpc])
    have hs := h.slot i
    refine ⟨_, h.wrkAt (i := i) .free (by simp [hpc]) rfl (fun g => Or.inl rfl)
      (fun j hj => by simp [hj]) rfl (by simp) (Or.inl rfl) ?_ trivial ?_⟩ <;>
    · generalize sit i = q at hhold hs
      cases q <;> simp_all [Working]
  | releaseLock hpc hlock | releaseWake hpc | releaseUnlock hpc =>
    exact ⟨sit, h.wrkRest (by simp [hpc]) rfl rfl rfl (fun j => .refl _) rfl rfl trivial⟩

end Owned

/-- At the start every slot is free. -/
theorem owned_init : Owned (init c) fun _ => .free := by
  constructor <;> simp [init, SlotInv, Slot.new, Future.new, Future.owns, WrkPc.holds,
    Sys.Queue.new, FutOk, WrkOk]

/-- The invariant of the pool: the locks exclude and every slot is in a situation. -/
def Inv (s : St c) : Prop := Locked s ∧ ∃ sit, Owned s sit

/-- Every step keeps the invariant. -/
theorem Inv.move (h : Inv s) (hm : Move s s') : Inv s' := by
  obtain ⟨hl, sit, ho⟩ := h
  refine ⟨hl.move hm, ?_⟩
  cases hm with
  | fut f hm => exact ho.futMove hl hm
  | wrk k hm => exact ho.wrkMove hl hm

/-- The invariant holds in every reachable state. -/
theorem Inv.of_reachable (h : (pool c).Reachable s) : Inv s :=
  h.invariant ⟨locked_init, _, owned_init⟩ fun _ _ _ hi hs => hi.move (.of_step hs)

end ZephyrRust.Blocking
