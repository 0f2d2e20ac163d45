import ZephyrRust.Timer

/-!
# `ZephyrRust.Proofs.Timer`: callbacks reach live data

`OwnerFits` says what the kernel timer holds at each place of the program, and `IrqFits` what the
interrupt has read of it. An expiry function is set on a running timer only while a `CallbackTimer`
owns it. As long as the interrupt is in `timer_expiry` this owner stays, because its drop waits in
`k_timer_stop` (`Inv.irq_idle`). So the address that the interrupt follows is the box of the owner,
and a box that was dropped is never followed again (`callback_live`).
-/

set_option autoImplicit false

namespace ZephyrRust.Timer

open ZephyrRust.Lib (System)

variable {Addr Ty : Type}

/-- The owner is a `CallbackTimer`. -/
def Owner.isCallback : Owner Addr Ty → Bool
  | .callback _ => true
  | _ => false

/-- What the timer and the heap hold at a place of the program. -/
def OwnerFits (s : St Addr Ty) : Owner Addr Ty → Prop
  | .gone | .dropSimple => s.timer.running = false
  | .stopped => s.timer.running = false ∧ s.timer.expiryFn = none
  | .simple => s.timer.expiryFn = none
  | .setExpiry a ty => s.timer.running = false ∧ ∃ cb, s.heap a = some cb ∧ cb.ty = ty
  | .setUserData a =>
    s.timer.running = false ∧ ∃ cb, s.heap a = some cb ∧ s.timer.expiryFn = some cb.ty
  | .start a =>
    s.timer.running = false ∧ s.timer.userData = some a ∧
      ∃ cb, s.heap a = some cb ∧ s.timer.expiryFn = some cb.ty
  | .callback a =>
    s.timer.userData = some a ∧ ∃ cb, s.heap a = some cb ∧ s.timer.expiryFn = some cb.ty
  | .clearExpiry a | .dropItem a | .dropBox a => s.timer.running = false ∧ ∃ cb, s.heap a = some cb

/-- What the interrupt has read. -/
def IrqFits (s : St Addr Ty) : Irq Addr Ty → Prop
  | .idle => True
  | .getUserData fn => s.timer.running = true ∧ s.timer.expiryFn = some fn
  | .call fn data | .inCallback fn data =>
    s.timer.running = true ∧ s.timer.expiryFn = some fn ∧ s.timer.userData = some data

/-- The call that the interrupt has not made yet. -/
def pending (s : St Addr Ty) : List (Invocation Ty) :=
  match s.irq with
  | .getUserData fn | .call fn _ => [{ fn := fn, callback := s.owner.box.bind s.heap }]
  | .idle | .inCallback _ _ => []

/-- The invariant. -/
structure Inv (s : St Addr Ty) : Prop where
  owner : OwnerFits s s.owner
  irq : IrqFits s s.irq
  heap : ∀ a cb, s.heap a = some cb → s.owner.box = some a ∧ cb.id < s.nextId ∧ cb.id ∉ s.dropped
  dropped : ∀ id ∈ s.dropped, id < s.nextId
  delivered : s.delivered = s.invoked ++ pending s
  typed : ∀ i ∈ s.invoked, ∃ cb, i.callback = some cb ∧ cb.ty = i.fn

/-- The expiry function and the user data are those of the `CallbackTimer` that owns the timer. -/
def Reaches (s : St Addr Ty) (fn : Ty) : Prop :=
  ∃ a cb, s.owner = .callback a ∧ s.heap a = some cb ∧ s.timer.userData = some a ∧ cb.ty = fn

variable {s s' : St Addr Ty}

/-- An expiry function on a running timer. -/
theorem Inv.reaches (h : Inv s) {fn : Ty} (hrun : s.timer.running = true)
    (hfn : s.timer.expiryFn = some fn) : Reaches s fn := by
  have hfits := h.owner
  cases howner : s.owner with
  | callback a =>
    rw [howner] at hfits
    obtain ⟨hdata, cb, hcb, hty⟩ := hfits
    exact ⟨a, cb, howner, hcb, hdata, Option.some.inj (hty.symm.trans hfn)⟩
  | simple =>
    rw [howner] at hfits
    cases hfits.symm.trans hfn
  | gone | dropSimple =>
    rw [howner] at hfits
    cases hfits.symm.trans hrun
  | _ =>
    rw [howner] at hfits
    cases hfits.1.symm.trans hrun

/-- While an expiry is handled, the owner is a `CallbackTimer`. -/
theorem Inv.reaches_of_irq (h : Inv s) (hirq : s.irq ≠ .idle) : ∃ fn, Reaches s fn := by
  have hfits := h.irq
  cases hpc : s.irq with
  | idle => exact absurd hpc hirq
  | getUserData fn =>
    rw [hpc] at hfits
    exact ⟨fn, h.reaches hfits.1 hfits.2⟩
  | call fn data | inCallback fn data =>
    rw [hpc] at hfits
    exact ⟨fn, h.reaches hfits.1 hfits.2.1⟩

/-- At every other place of the program no expiry is handled. -/
theorem Inv.irq_idle (h : Inv s) (howner : s.owner.isCallback = false) : s.irq = .idle := by
  by_contra hirq
  obtain ⟨fn, a, cb, hcallback, -⟩ := h.reaches_of_irq hirq
  rw [hcallback] at howner
  cases howner

theorem pending_of_idle (h : s.irq = .idle) : pending s = [] := by
  simp only [pending, h]

/-- All calls of the expiries so far have been made. -/
theorem Inv.delivered_eq (h : Inv s) (hirq : s.irq = .idle) : s.delivered = s.invoked := by
  have hall := h.delivered
  rwa [pending_of_idle hirq, List.append_nil] at hall

/-- A step of the program. -/
theorem Inv.program (h : Inv s) (hirq : s.irq = .idle) (timer : KTimer Addr Ty) (nextId : Nat)
    {owner : Owner Addr Ty} {heap : Addr → Option (Callback Ty)} {dropped : List Nat}
    (hfits : OwnerFits
      { s with timer := timer, owner := owner, heap := heap, nextId := nextId, dropped := dropped }
      owner)
    (hheap : ∀ a cb, heap a = some cb → owner.box = some a ∧ cb.id < nextId ∧ cb.id ∉ dropped)
    (hdropped : ∀ id ∈ dropped, id < nextId) :
    Inv { s with
      timer := timer, owner := owner, heap := heap, nextId := nextId, dropped := dropped } where
  owner := hfits
  irq := by
    show IrqFits _ s.irq
    rw [hirq]
    trivial
  heap := hheap
  dropped := hdropped
  delivered := by
    have hnone := pending_of_idle (s := { s with
      timer := timer, owner := owner, heap := heap, nextId := nextId, dropped := dropped }) hirq
    rw [hnone, List.append_nil]
    exact h.delivered_eq hirq
  typed := h.typed

/-- A step of the program that leaves the heap as it is. -/
theorem Inv.goTo (h : Inv s) (hirq : s.irq = .idle) (timer : KTimer Addr Ty)
    {owner : Owner Addr Ty} (hbox : owner.box = s.owner.box)
    (hfits : OwnerFits { s with timer := timer, owner := owner } owner) :
    Inv { s with timer := timer, owner := owner } :=
  h.program hirq timer _ hfits (by rw [hbox]; exact h.heap) h.dropped

/-! ## The program -/

theorem Inv.kTimerStop (h : Inv s) (owner : Owner Addr Ty) (hbox : owner.box = s.owner.box)
    (hfits : OwnerFits { s with timer := { s.timer with running := false }, owner := owner } owner)
    (hs : s.kTimerStop owner = some s') : Inv s' := by
  unfold St.kTimerStop at hs
  split at hs
  · rename_i hirq
    cases hs
    exact h.goTo hirq _ hbox hfits
  · cases hs

theorem Inv.new (h : Inv s) (hs : s.new = some s') : Inv s' := by
  unfold St.new at hs
  split at hs
  · rename_i howner
    cases hs
    have hirq := h.irq_idle (by rw [howner]; rfl)
    exact h.goTo hirq _ (by rw [howner]; rfl) ⟨rfl, rfl⟩
  · cases hs

theorem Inv.startSimple (h : Inv s) (hs : s.startSimple = some s') : Inv s' := by
  unfold St.startSimple at hs
  split at hs
  · rename_i howner
    cases hs
    have hirq := h.irq_idle (by rw [howner]; rfl)
    have hfits := h.owner
    rw [howner] at hfits
    exact h.goTo hirq _ (by rw [howner]; rfl) hfits.2
  · cases hs

theorem Inv.restart (h : Inv s) (hs : s.restart = some s') : Inv s' := by
  unfold St.restart at hs
  split at hs
  · rename_i howner
    cases hs
    have hirq := h.irq_idle (by rw [howner]; rfl)
    have hfits := h.owner
    rw [howner] at hfits
    exact h.goTo hirq _ (by rw [howner]) hfits
  · cases hs

theorem Inv.stop (h : Inv s) (hs : s.stop = some s') : Inv s' := by
  unfold St.stop at hs
  split at hs
  · rename_i howner
    have hfits := h.owner
    rw [howner] at hfits
    exact h.kTimerStop .stopped (by rw [howner]; rfl) ⟨rfl, hfits⟩ hs
  · cases hs

theorem Inv.drop (h : Inv s) (hs : s.drop = some s') : Inv s' := by
  have hfits := h.owner
  unfold St.drop at hs
  split at hs
  · rename_i howner
    cases hs
    have hirq := h.irq_idle (by rw [howner]; rfl)
    rw [howner] at hfits
    exact h.goTo hirq _ (by rw [howner]; rfl) hfits.1
  · rename_i howner
    exact h.kTimerStop .dropSimple (by rw [howner]; rfl) rfl hs
  · rename_i a howner
    rw [howner] at hfits
    obtain ⟨-, cb, hcb, -⟩ := hfits
    exact h.kTimerStop (.clearExpiry a) (by rw [howner]; rfl) ⟨rfl, cb, hcb⟩ hs
  · cases hs

variable [DecidableEq Addr]

/-- The box of a new `CallbackTimer` is the only one, because a `StoppedTimer` has none. -/
theorem Inv.startCallback (h : Inv s) {a : Addr} {ty : Ty}
    (hs : s.startCallback a ty = some s') : Inv s' := by
  unfold St.startCallback at hs
  split at hs
  · rename_i howner hfree
    cases hs
    have hirq := h.irq_idle (by rw [howner]; rfl)
    have hfits := h.owner
    rw [howner] at hfits
    refine h.program hirq s.timer _ ?_ ?_ ?_
    · exact ⟨hfits.1, _, Function.update_self a _ s.heap, rfl⟩
    · intro b cb hcb
      by_cases hb : b = a
      · -- Its number is a new one, so no callback with it was dropped.
        rw [hb, Function.update_self] at hcb
        cases hcb
        refine ⟨congrArg some hb.symm, Nat.lt_succ_self _, fun hmem => ?_⟩
        exact Nat.lt_irrefl _ (h.dropped _ hmem)
      · rw [Function.update_of_ne hb] at hcb
        have hbox := (h.heap b cb hcb).1
        rw [howner] at hbox
        cases hbox
    · intro id hid
      exact Nat.lt_succ_of_lt (h.dropped id hid)
  · cases hs

/-- The end of a drop. The callback is gone with its box. -/
theorem Inv.dropBox (h : Inv s) {a : Addr} (howner : s.owner = .dropBox a)
    (hs : s.next = some s') : Inv s' := by
  have hirq := h.irq_idle (by rw [howner]; rfl)
  have hfits := h.owner
  rw [howner] at hfits
  obtain ⟨hrun, cb, hcb⟩ := hfits
  simp only [St.next, howner, hcb] at hs
  cases hs
  refine h.program hirq s.timer s.nextId hrun ?_ ?_
  · intro b cb' hcb'
    by_cases hb : b = a
    · rw [hb, Function.update_self] at hcb'
      cases hcb'
    · -- No other box was in the heap.
      rw [Function.update_of_ne hb] at hcb'
      have hbox := (h.heap b cb' hcb').1
      rw [howner] at hbox
      exact absurd (Option.some.inj hbox).symm hb
  · intro id hid
    rcases List.mem_append.mp hid with hold | hnew
    · exact h.dropped id hold
    · rw [List.mem_singleton.mp hnew]
      exact (h.heap a cb hcb).2.1

theorem Inv.next (h : Inv s) (hs : s.next = some s') : Inv s' := by
  have hfits := h.owner
  cases howner : s.owner with
  | dropBox a => exact h.dropBox howner hs
  | setExpiry a ty =>
    have hirq := h.irq_idle (by rw [howner]; rfl)
    rw [howner] at hfits
    obtain ⟨hrun, cb, hcb, rfl⟩ := hfits
    simp only [St.next, howner] at hs
    cases hs
    exact h.goTo hirq _ (by rw [howner]; rfl) ⟨hrun, cb, hcb, rfl⟩
  | setUserData a =>
    have hirq := h.irq_idle (by rw [howner]; rfl)
    rw [howner] at hfits
    obtain ⟨hrun, cb, hcb, hty⟩ := hfits
    simp only [St.next, howner] at hs
    cases hs
    exact h.goTo hirq _ (by rw [howner]; rfl) ⟨hrun, rfl, cb, hcb, hty⟩
  | start a =>
    have hirq := h.irq_idle (by rw [howner]; rfl)
    rw [howner] at hfits
    simp only [St.next, howner] at hs
    cases hs
    exact h.goTo hirq _ (by rw [howner]; rfl) hfits.2
  | clearExpiry a =>
    have hirq := h.irq_idle (by rw [howner]; rfl)
    rw [howner] at hfits
    simp only [St.next, howner] at hs
    cases hs
    exact h.goTo hirq _ (by rw [howner]; rfl) hfits
  | dropItem a | dropSimple =>
    have hirq := h.irq_idle (by rw [howner]; rfl)
    rw [howner] at hfits
    simp only [St.next, howner] at hs
    cases hs
    exact h.goTo hirq s.timer (by rw [howner]; rfl) hfits
  | _ =>
    simp only [St.next, howner] at hs
    cases hs

/-! ## The interrupt -/

omit [DecidableEq Addr] in
theorem Inv.expire (h : Inv s) (hs : s.expire = some s') : Inv s' := by
  unfold St.expire at hs
  split at hs
  · rename_i hirq hrun
    split at hs
    · rename_i fn hfn
      cases hs
      refine ⟨h.owner, ⟨hrun, hfn⟩, h.heap, h.dropped, ?_, h.typed⟩
      show s.delivered ++ _ = s.invoked ++ _
      rw [h.delivered_eq hirq]
      rfl
    · -- Without an expiry function, the kernel calls nobody.
      cases hs
      exact h
  · cases hs

omit [DecidableEq Addr] in
/-- The call that the interrupt makes is the one that was due when the expiry was delivered. -/
theorem Inv.call_eq (h : Inv s) {fn : Ty} {data : Addr} (hirq : s.irq = .call fn data) :
    ∃ cb, s.owner = .callback data ∧ s.heap data = some cb ∧ cb.ty = fn ∧
      s.delivered = s.invoked ++ [{ fn := fn, callback := some cb }] := by
  have hfits := h.irq
  have hdelivered := h.delivered
  rw [hirq] at hfits
  obtain ⟨a, cb, howner, hcb, hdata, hty⟩ := h.reaches hfits.1 hfits.2.1
  obtain rfl : a = data := Option.some.inj (hdata.symm.trans hfits.2.2)
  refine ⟨cb, howner, hcb, hty, ?_⟩
  simpa [pending, hirq, howner, Owner.box, hcb] using hdelivered

omit [DecidableEq Addr] in
theorem Inv.timerExpiry (h : Inv s) (hs : s.timerExpiry = some s') : Inv s' := by
  have hfits := h.irq
  unfold St.timerExpiry at hs
  split at hs
  · rename_i fn hirq
    rw [hirq] at hfits
    -- The user data is set, so `timer_expiry` goes on to the callback.
    obtain ⟨a, cb, howner, hcb, hdata, hty⟩ := h.reaches hfits.1 hfits.2
    rw [hdata] at hs
    cases hs
    refine ⟨h.owner, ⟨hfits.1, hfits.2, hdata⟩, h.heap, h.dropped, ?_, h.typed⟩
    have hdelivered := h.delivered
    simpa only [pending, hirq] using hdelivered
  · rename_i fn data hirq
    rw [hirq] at hfits
    cases hs
    -- The call that was due is made now, so it moves from the pending ones to the history.
    obtain ⟨cb, howner, hcb, hty, hdelivered⟩ := h.call_eq hirq
    refine ⟨h.owner, hfits, h.heap, h.dropped, ?_, ?_⟩
    · show s.delivered = s.invoked ++ [_] ++ []
      rw [List.append_nil, hcb]
      exact hdelivered
    · intro i hi
      rcases List.mem_append.mp hi with hold | hnew
      · exact h.typed i hold
      · rw [List.mem_singleton.mp hnew]
        exact ⟨cb, hcb, hty⟩
  · rename_i fn data hirq
    cases hs
    refine ⟨h.owner, trivial, h.heap, h.dropped, ?_, h.typed⟩
    have hdelivered := h.delivered
    simpa only [pending, hirq] using hdelivered
  · cases hs

theorem Inv.step {a : Act Addr Ty} (h : Inv s) (hs : (timer Addr Ty).step s a = some s') :
    Inv s' := by
  cases a with
  | new => exact h.new hs
  | startSimple => exact h.startSimple hs
  | startCallback a ty => exact h.startCallback hs
  | restart => exact h.restart hs
  | stop => exact h.stop hs
  | drop => exact h.drop hs
  | next => exact h.next hs
  | expire => exact h.expire hs
  | timerExpiry => exact h.timerExpiry hs

theorem Inv.of_reachable (h : (timer Addr Ty).Reachable s) : Inv s := by
  refine h.invariant ⟨rfl, trivial, ?_, ?_, rfl, ?_⟩ fun s a s' hs h' => hs.step h'
  · intro a cb hcb
    cases hcb
  · intro id hid
    cases hid
  · intro i hi
    cases hi

/-! ## Results -/

/-- How often a callback has been called. -/
def calls (s : St Addr Ty) (id : Nat) : Nat :=
  s.invoked.countP fun i => i.callback.map Callback.id = some id

/-- What a step adds to the histories. -/
def Extends (s s' : St Addr Ty) : Prop :=
  (s'.invoked = s.invoked ∨ ∃ fn data, s.irq = .call fn data ∧
    s'.invoked = s.invoked ++ [{ fn := fn, callback := s.heap data }]) ∧ s.dropped <+: s'.dropped

omit [DecidableEq Addr] in
theorem Extends.of_eq (hinvoked : s'.invoked = s.invoked) (hdropped : s'.dropped = s.dropped) :
    Extends s s' := by
  have hprefix : s.dropped <+: s.dropped := List.prefix_rfl
  exact ⟨.inl hinvoked, hdropped.symm ▸ hprefix⟩

omit [DecidableEq Addr] in
theorem extends_of_kTimerStop {owner : Owner Addr Ty} (hs : s.kTimerStop owner = some s') :
    Extends s s' := by
  unfold St.kTimerStop at hs
  split at hs
  · cases hs
    exact .of_eq rfl rfl
  · cases hs

theorem extends_of_next (hs : s.next = some s') : Extends s s' := by
  unfold St.next at hs
  split at hs
  case h_6 a howner =>
    cases hs
    exact ⟨.inl rfl, List.prefix_append _ _⟩
  all_goals
    cases hs
    try exact .of_eq rfl rfl

omit [DecidableEq Addr] in
theorem extends_of_timerExpiry (hs : s.timerExpiry = some s') : Extends s s' := by
  unfold St.timerExpiry at hs
  split at hs
  · split at hs <;>
      · cases hs
        exact .of_eq rfl rfl
  · rename_i fn data hirq
    cases hs
    exact ⟨.inr ⟨fn, data, hirq, rfl⟩, List.prefix_rfl⟩
  · cases hs
    exact .of_eq rfl rfl
  · cases hs

theorem extends_of_step {a : Act Addr Ty} (hs : (timer Addr Ty).step s a = some s') :
    Extends s s' := by
  cases a with
  | new =>
    simp only [timer, St.new] at hs
    split at hs <;> cases hs
    exact .of_eq rfl rfl
  | startSimple =>
    simp only [timer, St.startSimple] at hs
    split at hs <;> cases hs
    exact .of_eq rfl rfl
  | startCallback a ty =>
    simp only [timer, St.startCallback] at hs
    split at hs <;> cases hs
    exact .of_eq rfl rfl
  | restart =>
    simp only [timer, St.restart] at hs
    split at hs <;> cases hs
    exact .of_eq rfl rfl
  | stop =>
    simp only [timer, St.stop] at hs
    split at hs
    · exact extends_of_kTimerStop hs
    · cases hs
  | drop =>
    simp only [timer, St.drop] at hs
    split at hs
    · cases hs
      exact .of_eq rfl rfl
    · exact extends_of_kTimerStop hs
    · exact extends_of_kTimerStop hs
    · cases hs
  | next => exact extends_of_next hs
  | expire =>
    simp only [timer, St.expire] at hs
    split at hs
    · split at hs <;>
        · cases hs
          exact .of_eq rfl rfl
    · cases hs
  | timerExpiry => exact extends_of_timerExpiry hs

/-- A step does not call a callback that was dropped. -/
theorem Inv.calls_eq (h : Inv s) {a : Act Addr Ty} {id : Nat} (hid : id ∈ s.dropped)
    (hs : (timer Addr Ty).step s a = some s') : id ∈ s'.dropped ∧ calls s' id = calls s id := by
  obtain ⟨hinvoked, hdropped⟩ := extends_of_step hs
  refine ⟨hdropped.subset hid, ?_⟩
  unfold calls
  rcases hinvoked with hsame | ⟨fn, data, hirq, hcall⟩
  · rw [hsame]
  · obtain ⟨cb, -, hcb, -, -⟩ := h.call_eq hirq
    have hne : cb.id ≠ id := by
      rintro rfl
      exact (h.heap data cb hcb).2.2 hid
    rw [hcall, List.countP_append, hcb]
    simp [hne]

omit [DecidableEq Addr] in
/-- The calls that are due are those of callbacks of the type of their function. -/
theorem Inv.delivered_typed (h : Inv s) :
    ∀ i ∈ s.delivered, ∃ cb, i.callback = some cb ∧ cb.ty = i.fn := by
  intro i hi
  rw [h.delivered] at hi
  rcases List.mem_append.mp hi with hmade | hdue
  · exact h.typed i hmade
  · have hfits := h.irq
    have hcallback : ∀ fn, Reaches s fn → i = { fn := fn, callback := s.owner.box.bind s.heap } →
        ∃ cb, i.callback = some cb ∧ cb.ty = i.fn := by
      rintro fn ⟨a, cb, howner, hcb, -, hty⟩ rfl
      refine ⟨cb, ?_, hty⟩
      rw [howner]
      exact hcb
    unfold pending at hdue
    split at hdue
    · rename_i fn hirq
      rw [hirq] at hfits
      exact hcallback fn (h.reaches hfits.1 hfits.2) (List.mem_singleton.mp hdue)
    · rename_i fn data hirq
      rw [hirq] at hfits
      exact hcallback fn (h.reaches hfits.1 hfits.2.1) (List.mem_singleton.mp hdue)
    · cases hdue
    · cases hdue

/-- When an expiry is delivered with an expiry function, the function and the user data are those
of the `CallbackTimer` that owns the timer, and while the expiry is handled this stays so. The calls
that the interrupt has made are those that were due, one for each delivery. A callback that was
dropped is not called any more, whatever the timer is used for. -/
theorem callback_live (h : (timer Addr Ty).Reachable s) :
    (∀ fn, (timer Addr Ty).step s .expire ≠ none → s.timer.expiryFn = some fn → Reaches s fn) ∧
    (∀ fn, s.irq = .getUserData fn → Reaches s fn) ∧
    (∀ fn data, s.irq = .call fn data ∨ s.irq = .inCallback fn data →
      Reaches s fn ∧ s.owner = .callback data) ∧
    (∃ rest, s.delivered = s.invoked ++ rest ∧ (s.irq = .idle → rest = [])) ∧
    (∀ i ∈ s.delivered, ∃ cb, i.callback = some cb ∧ cb.ty = i.fn) ∧
    ∀ id ∈ s.dropped, ∀ s', (timer Addr Ty).Later s s' → calls s' id = calls s id := by
  have hinv := Inv.of_reachable h
  have hfits := hinv.irq
  refine ⟨?_, ?_, ?_, ?_, hinv.delivered_typed, ?_⟩
  · intro fn hexpire hfn
    refine hinv.reaches ?_ hfn
    by_contra hrun
    refine hexpire ?_
    simp [timer, St.expire, Bool.eq_false_iff.mpr hrun]
  · intro fn hirq
    rw [hirq] at hfits
    exact hinv.reaches hfits.1 hfits.2
  · intro fn data hirq
    have hread : s.timer.running = true ∧ s.timer.expiryFn = some fn ∧
        s.timer.userData = some data := by
      rcases hirq with hirq | hirq <;>
        · rw [hirq] at hfits
          exact hfits
    have hreaches := hinv.reaches hread.1 hread.2.1
    refine ⟨hreaches, ?_⟩
    obtain ⟨a, cb, howner, -, hdata, -⟩ := hreaches
    rw [howner, Option.some.inj (hdata.symm.trans hread.2.2)]
  · exact ⟨pending s, hinv.delivered, pending_of_idle⟩
  · intro id hid s' hl
    have hstable := hl.stable (I := fun r => id ∈ r.dropped ∧ calls r id = calls s id) h
      ⟨hid, rfl⟩ ?_
    · exact hstable.2
    · rintro r a r' hr ⟨hmem, hcalls⟩ hs
      obtain ⟨hmem', hsame⟩ := (Inv.of_reachable hr).calls_eq hmem hs
      exact ⟨hmem', hsame.trans hcalls⟩

/-- A `CallbackTimer` in the middle of an expiry, after another one at the same address was
dropped. -/
theorem callback_live_again : ∃ s : St Unit Bool, s.irq = .call true () ∧ s.dropped = [0] ∧
    s.owner = .callback () ∧ ∀ s', (timer Unit Bool).Later s s' → calls s' 0 = calls s 0 := by
  obtain ⟨s, hr, hs⟩ := (timer Unit Bool).reachable_of_exec
    [.new, .startSimple, .expire, .restart, .stop, .startCallback () false, .next, .next, .next,
      .expire, .timerExpiry, .timerExpiry, .timerExpiry, .drop, .next, .next, .next, .new,
      .startCallback () true, .next, .next, .next, .expire, .timerExpiry]
    (fun s => decide (s.irq = .call true () ∧ s.dropped = [0])) (by decide +kernel)
  obtain ⟨hirq, hdropped⟩ := of_decide_eq_true hs
  have hlive := callback_live hr
  refine ⟨s, hirq, hdropped, (hlive.2.2.1 true () (.inl hirq)).2, hlive.2.2.2.2.2 0 ?_⟩
  rw [hdropped]
  exact List.mem_singleton_self 0

end ZephyrRust.Timer
