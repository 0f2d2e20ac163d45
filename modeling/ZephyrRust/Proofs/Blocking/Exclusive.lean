import Mathlib.Data.List.Nodup
import ZephyrRust.Proofs.Blocking.Ownership

/-!
# `ZephyrRust.Proofs.Blocking.Exclusive`: a slot of the blocking pool has one user

The ownership invariant, read as a statement about references. `Future.refers` and
`WrkPc.refers` say that a party still has a reference to a slot, in a field or in a local
variable. `FutPc.leaving` and `WrkPc.leaving` are the last operations of a party that has
given its slot up: what is left is to drop a lock guard and to wake tasks.

`SlotIn s i q` describes slot `i` in the situation `q` by its state field, its occurrences
in `QUEUE`, and the parties that refer to it. `slot_in_one_situation` says that in every
reachable state every slot is in exactly one situation, and that `run_op` dereferences
`slot.shared` only when it addresses the `Shared` of the live owner of the slot, at the
owner's closure type and under the slot's lock.
-/

set_option autoImplicit false

namespace ZephyrRust.Blocking

variable {c : Config} {s s' : St c} {sit : Fin c.slots → Situation c}

/-- The slot that a poll or a drop has in a local variable. -/
def FutPc.slot : FutPc c → Option (Fin c.slots)
  | .claim _ (.unlock r) => r
  | .submit _ i _ => some i
  | .register _ i => some i
  | .load i => some i
  | .takeResult i => some i
  | .clearSlot i _ => some i
  | .ready _ (.store i) => some i
  | .cancel i _ => some i
  | .discard _ (.store i) => some i
  | _ => none

/-- The future is alive and refers to slot `i`, in its `slot` field or in a local variable. -/
def Future.refers (F : Future c) (i : Fin c.slots) : Prop :=
  F.pc ≠ .dropped ∧ (F.slot = some i ∨ F.pc.slot = some i)

/-- The future has stored `Free` and has waiting tasks to wake, or it has stored `Orphaned`
and has the slot's lock to drop. -/
def FutPc.leaving : FutPc c → Prop
  | .ready _ (.store _) => False
  | .ready _ _ => True
  | .discard _ (.store _) => False
  | .discard _ _ => True
  | .cancel _ (.unlock true) => True
  | _ => False

/-- The worker refers to slot `i`. -/
def WrkPc.refers (i : Fin c.slots) : WrkPc c → Prop
  | .runner j => j = i
  | .take _ j _ => j = i
  | .exec _ j _ => j = i
  | .finish _ j _ _ _ => j = i
  | .wake j _ => j = i
  | .release (.store j) => j = i
  | _ => False

/-- The worker has stored `Done` and has the slot's lock to drop and the owner to wake. -/
def WrkPc.leaving : WrkPc c → Prop
  | .finish _ _ _ _ (.unlock false) => True
  | .wake _ _ => True
  | _ => False

/-- The state field of a slot in a situation. -/
def Situation.state : Situation c → SlotState
  | .free => .free
  | .claimed _ => .claimed
  | .sending _ | .queued _ | .removed _ | .running _ _ => .queued
  | .done _ => .done
  | .orphaned _ => .orphaned

/-- How often a slot in a situation is in `QUEUE`. -/
def Situation.queuedTimes : Situation c → Nat
  | .queued _ => 1
  | _ => 0

/-- Slot `i` is in the situation `q`: its state field and its occurrences in `QUEUE` are
those of `q`, and the parties of `q` are the ones that refer to the slot, up to parties that
are leaving it. -/
structure SlotIn (s : St c) (i : Fin c.slots) (q : Situation c) : Prop where
  state : (s.slots i).state = q.state
  queue : s.queue.count i = q.queuedTimes
  owner : ∀ f, ((s.fut f).refers i ∧ ¬(s.fut f).pc.leaving) ↔ q.owner = some f
  holder : ∀ k, ((s.wrk k).refers i ∧ ¬(s.wrk k).leaving) ↔ q.holder = some k
  sending : ∀ f, q = .sending f → ∃ w, (s.fut f).pc = .submit w i .send
  removed : ∀ f, q = .removed f → (s.fut f).pc = .discard true (.store i)

/-- A slot is in at most one situation. -/
theorem SlotIn.unique {i : Fin c.slots} {q r : Situation c} (hq : SlotIn s i q)
    (hr : SlotIn s i r) : q = r := by
  have hstate := hq.state.symm.trans hr.state
  have hqueue := hq.queue.symm.trans hr.queue
  have howner : q.owner = r.owner :=
    Option.ext fun f => (hq.owner f).symm.trans (hr.owner f)
  have hholder : q.holder = r.holder :=
    Option.ext fun k => (hq.holder k).symm.trans (hr.holder k)
  cases q <;> cases r <;>
    simp_all [Situation.state, Situation.queuedTimes, Situation.owner, Situation.holder]
  -- The state, the queue and the parties leave a slot that is sent or was just removed.
  · obtain ⟨w, hw⟩ := hq.sending _ rfl
    simp [hr.removed _ rfl] at hw
  · obtain ⟨w, hw⟩ := hr.sending _ rfl
    simp [hq.removed _ rfl] at hw

/-- The `slot` field of a future is the slot it owns, until its drop leaves it. -/
def Fields (s : St c) : Prop :=
  ∀ f i, (s.fut f).slot = some i →
    (s.fut f).owns = some i ∨ (s.fut f).pc = .dropped ∨ (s.fut f).pc.leaving

theorem Fields.futMove {f : c.Fut} (h : Fields s) (hok : FutOk f (s.fut f))
    (hok' : FutOk f (s'.fut f)) (hm : FutMove s f s') : Fields s' := by
  intro g i
  have hg := h g i
  have hf := h f
  by_cases hgf : g = f
  · subst hgf
    cases hm <;> simp_all [Future.owns, FutPc.leaving, FutOk]
  · rw [hm.fut_of_ne hgf]
    exact hg

theorem Fields.wrkMove {k : Fin c.threads} (h : Fields s) (hm : WrkMove s k s') :
    Fields s' := by
  intro f i
  rw [Future.owns, (hm.fut f).1, (hm.fut f).2]
  exact h f i

theorem Fields.of_reachable (h : (pool c).Reachable s) : Fields s := by
  refine (h.invariant (I := fun s => Inv s ∧ Fields s) ⟨Inv.of_reachable .start, ?_⟩ ?_).2
  · intro f i hi
    simp [pool, init, Future.new] at hi
  · rintro s a s' ⟨hi, hf⟩ hs
    have hm := Move.of_step hs
    -- `FutOk` after the step says that a future at rest has no stale field.
    have hi' := hi.move hm
    refine ⟨hi', ?_⟩
    obtain ⟨-, sit, ho⟩ := hi
    obtain ⟨-, sit', ho'⟩ := hi'
    cases hm with
    | fut f hm => exact hf.futMove (ho.fut f) (ho'.fut f) hm
    | wrk k hm => exact hf.wrkMove hm

/-- A future owns exactly the slot that it refers to and is not leaving. -/
theorem Fields.owns_iff (h : Fields s) (f : c.Fut) (i : Fin c.slots) :
    ((s.fut f).refers i ∧ ¬(s.fut f).pc.leaving) ↔ (s.fut f).owns = some i := by
  constructor
  · rintro ⟨⟨hlive, hs | hs⟩, hl⟩
    · rcases h f i hs with ho | hd | hl'
      · exact ho
      · exact absurd hd hlive
      · exact absurd hl' hl
    · unfold FutPc.slot at hs
      unfold FutPc.leaving at hl
      unfold Future.owns
      split at hs <;> simp_all
      grind
  · intro ho
    unfold Future.owns at ho
    unfold Future.refers FutPc.slot FutPc.leaving
    split at ho <;> simp_all

/-- A worker has exactly the slot in its hands that it refers to and is not leaving. -/
theorem WrkPc.holds_iff (p : WrkPc c) (i : Fin c.slots) :
    (p.refers i ∧ ¬p.leaving) ↔ p.holds = some i := by
  unfold WrkPc.refers WrkPc.leaving WrkPc.holds
  cases p <;> grind

/-- The ownership invariant puts a slot in the situation it names. -/
theorem Owned.slotIn (h : Owned s sit) (hf : Fields s) (i : Fin c.slots) :
    SlotIn s i (sit i) := by
  have hs := h.slot i
  refine ⟨?_, ?_, fun f => ?_, fun k => ?_, ?_, ?_⟩
  · cases hq : sit i <;> rw [hq] at hs <;> exact hs.1
  · cases hq : sit i <;> rw [hq] at hs
    -- Only a queued slot is in the queue, and there it is once.
    case queued f => exact List.count_eq_one_of_mem h.nodup hs.2.1
    all_goals exact List.count_eq_zero.mpr (by simp_all [SlotInv])
  · rw [hf.owns_iff]
    exact ⟨h.own f i, hs.owns⟩
  · rw [WrkPc.holds_iff]
    exact ⟨h.hold k i, hs.holds⟩
  · intro f hq
    rw [hq] at hs
    exact hs.2.2.2.2
  · intro f hq
    rw [hq] at hs
    exact hs.2.2.2

/-- A worker that is about to dereference `slot.shared` of slot `i` at the closure type `t`,
in either critical section of `run_op::<t>`, with the pointer `ptr` that it read. -/
def WrkPc.derefs (p : WrkPc c) (t : c.Ty) (i : Fin c.slots) (ptr : Option c.Fut) : Prop :=
  p = .take t i (.op ptr) ∨ ∃ op v, p = .finish t i op v (.result ptr)

/-- The pointer that a worker dereferences is the one in the slot, and addresses the
`Shared` of the slot's owner. -/
theorem Owned.derefs (h : Owned s sit) (hl : Locked s) {k : Fin c.threads} {t : c.Ty}
    {i : Fin c.slots} {ptr : Option c.Fut} (hk : (s.wrk k).derefs t i ptr) :
    ∃ f, sit i = .running f k ∧ ptr = some f ∧ (s.slots i).shared = some f ∧ c.ty f = t := by
  have hin : (s.wrk k).inSlot = some i := by
    rcases hk with hk | ⟨op, v, hk⟩ <;> simp [hk, WrkPc.inSlot]
  have hhold := h.hold k i (by
    rcases hk with hk | ⟨op, v, hk⟩ <;> simp [hk, WrkPc.holds])
  have hs := h.slot i
  generalize sit i = q at hhold hs
  cases q with
  | running f k' =>
    cases hhold
    refine ⟨f, rfl, ?_⟩
    have hsh := (hs.shared hl hin).1
    obtain ⟨-, -, -, -, hwork⟩ := hs
    rcases hk with hk | ⟨op, v, hk⟩
    · rw [hk] at hwork
      exact ⟨hwork.2.2.1, hsh, hwork.2.1.symm⟩
    · rw [hk] at hwork
      exact ⟨hwork.2.2.2.2.2.2, hsh, hwork.2.1.symm⟩
  | orphaned k' =>
    cases hhold
    obtain ⟨-, -, hab⟩ := hs
    rcases hk with hk | ⟨op, v, hk⟩ <;> simp [hk, Abandoned] at hab
  | _ => cases hhold

/-- Slot ownership. In every state of every run of the pool, every slot is in exactly one
situation. When a worker dereferences the pointer it read from `slot.shared`, the slot is
owned by a live future and held by this worker under the slot's lock, and the pointer
addresses the `Shared` of that future at its own closure type. No worker dereferences
anything else. -/
theorem slot_in_one_situation (h : (pool c).Reachable s) :
    (∀ i, ∃! q, SlotIn s i q) ∧
    (∀ k t i ptr, (s.wrk k).derefs t i ptr → ∃ f, ptr = some f ∧
      (s.slots i).shared = some f ∧ SlotIn s i (.running f k) ∧ (s.fut f).pc ≠ .dropped ∧
      c.ty f = t ∧ (s.slots i).lock = some (.wrk k)) ∧
    ∀ k, s.wrk k ≠ .fault := by
  obtain ⟨hl, sit, ho⟩ := Inv.of_reachable h
  have hf := Fields.of_reachable h
  refine ⟨fun i => ⟨sit i, ho.slotIn hf i, fun q hq => hq.unique (ho.slotIn hf i)⟩,
    fun k t i ptr hk => ?_, fun k hk => ?_⟩
  · obtain ⟨f, hq, hptr, hsh, hty⟩ := ho.derefs hl hk
    have hin := ho.slotIn hf i
    rw [hq] at hin
    refine ⟨f, hptr, hsh, hin, ((hin.owner f).mpr rfl).1.1, hty, hl.slotWrk k i ?_⟩
    rcases hk with hk | ⟨op, v, hk⟩ <;> simp [hk, WrkPc.inSlot]
  · have := ho.wrk k
    simp [hk, WrkOk] at this

/-- A worker of a pool with one slot is about to take the closure of the first future. -/
theorem slot_in_one_situation_at_take :
    ∃ s, (pool .single).Reachable s ∧ (s.wrk 0).derefs () 0 (some 0) ∧
      (∀ i, ∃! q, SlotIn s i q) ∧ SlotIn s 0 (.running 0 0) := by
  obtain ⟨s, hr, hs⟩ := (pool .single).reachable_of_exec
    (.poll 0 0 :: (List.replicate 12 (.fut 0) ++ List.replicate 5 (.wrk 0 7)))
    (fun s => match s.wrk 0 with
      | .take _ i (.op ptr) => decide (i = 0 ∧ ptr = some 0)
      | _ => false) rfl
  have hd : (s.wrk 0).derefs () 0 (some 0) := by
    left
    split at hs
    · simp_all
    · cases hs
  obtain ⟨hone, hderef, -⟩ := slot_in_one_situation hr
  obtain ⟨f, hf, -, hin, -⟩ := hderef 0 () 0 (some 0) hd
  cases hf
  exact ⟨s, hr, hd, hone, hin⟩

end ZephyrRust.Blocking
