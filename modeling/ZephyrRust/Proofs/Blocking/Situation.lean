import ZephyrRust.Proofs.Blocking.Locked

/-!
# `ZephyrRust.Proofs.Blocking.Situation`: what a slot of the blocking pool is used for

A slot of the pool is passed between its owning future, `QUEUE` and a worker. `Situation`
names the places it can be in, with the parties that hold it. `SlotInv s i q` says that
slot `i` is in the situation `q` in the state `s`: the value of its state field, whether it
is queued, where the owner and the worker are in their code, and what the cells of the
slot and of the owner's `Shared` hold.

`Owned s sit` is the ownership invariant: every slot is in its situation, a future that
refers to a slot is the owner that the situation of the slot names, and a worker that
refers to a slot is the worker that it names. So a party that moves can only touch the slot
that it holds. `Owned.move` uses this: a step that touches one slot keeps the invariant
when it keeps `SlotInv` of that slot.
-/

set_option autoImplicit false

namespace ZephyrRust.Blocking

variable {c : Config}

/-- The slot that a future owns. A future that stored `Free` or `Orphaned` owns no slot,
although it may still have a lock to release or tasks to wake. -/
def Future.owns (F : Future c) : Option (Fin c.slots) :=
  match F.pc with
  | .idle => F.slot
  | .claim _ (.unlock r) => r
  | .submit _ i _ => some i
  | .register _ i => some i
  | .load i => some i
  | .takeResult i => some i
  | .clearSlot i _ => some i
  | .ready _ (.store i) => some i
  | .cancel _ (.unlock true) => none
  | .cancel i _ => some i
  | .discard _ (.store i) => some i
  | _ => none

/-- The slot that a worker has in its hands. A worker that stored `Done` or `Free` has none,
although it may still have a lock to release or tasks to wake. -/
def WrkPc.holds : WrkPc c → Option (Fin c.slots)
  | .runner i => some i
  | .take _ i _ => some i
  | .exec _ i _ => some i
  | .finish _ _ _ _ (.unlock false) => none
  | .finish _ i _ _ _ => some i
  | .release (.store i) => some i
  | _ => none

variable (c)

/-- What a slot is used for. -/
inductive Situation
  | free
  /-- `f` has claimed the slot and wires it up. -/
  | claimed (f : c.Fut)
  /-- `f` has stored `Queued` and sends the slot next. -/
  | sending (f : c.Fut)
  /-- The slot is in `QUEUE`. -/
  | queued (f : c.Fut)
  /-- The drop of `f` has removed the slot from `QUEUE` and releases it next. -/
  | removed (f : c.Fut)
  /-- The worker `k` has the slot, and `f` waits for its result. -/
  | running (f : c.Fut) (k : Fin c.threads)
  /-- The result of `f` is there. -/
  | done (f : c.Fut)
  /-- The worker `k` has the slot, and its future is dropped. -/
  | orphaned (k : Fin c.threads)

variable {c}

/-- The future that owns a slot. -/
def Situation.owner : Situation c → Option c.Fut
  | .free | .orphaned _ => none
  | .claimed f | .sending f | .queued f | .removed f | .running f _ | .done f => some f

/-- The worker that has a slot in its hands. -/
def Situation.holder : Situation c → Option (Fin c.threads)
  | .running _ k | .orphaned k => some k
  | _ => none

/-- The slot's cells are wired up for `f`, which still has its closure. -/
def Loaded (S : Slot c) (f : c.Fut) (F : Future c) : Prop :=
  F.op = some f ∧ F.result = none ∧ S.shared = some f ∧ S.runner = some (c.ty f)

/-- `f` has claimed slot `i` and has not stored `Queued` yet. -/
def Claiming (S : Slot c) (i : Fin c.slots) (f : c.Fut) (F : Future c) : Prop :=
  F.op = some f ∧ F.result = none ∧
  match F.pc with
  | .claim _ (.unlock (some j)) => j = i
  | .submit _ j .setSlot => j = i
  | .submit _ j .register => j = i ∧ F.slot = some i
  | .submit _ j .setShared => j = i ∧ F.slot = some i
  | .submit _ j .setRunner => j = i ∧ F.slot = some i ∧ S.shared = some f
  | .submit _ _ .send => False
  | .submit _ j _ => j = i ∧ F.slot = some i ∧ S.shared = some f ∧ S.runner = some (c.ty f)
  | _ => False

/-- `F` is between polls of slot `i`, in a poll that has not read `Done`, or at the start
of its drop. -/
def Waiting (i : Fin c.slots) (F : Future c) : Prop :=
  F.slot = some i ∧
  match F.pc with
  | .idle => True
  | .register _ j => j = i
  | .load j => j = i
  | .cancel j .remove => j = i
  | _ => False

/-- The owner of a slot that a worker has: it waits, or its drop is on the way to
`Orphaned`. Only the last operation before the store finds the pointer cleared. -/
def Watching (S : Slot c) (i : Fin c.slots) (f : c.Fut) (F : Future c) : Prop :=
  (S.shared = some f ∧ Waiting i F) ∨
  match F.pc with
  | .cancel j .lock => j = i ∧ S.shared = some f
  | .cancel j .load => j = i ∧ S.shared = some f
  | .cancel j .clear => j = i ∧ S.shared = some f
  | .cancel j .store => j = i
  | _ => False

/-- The worker that has slot `i` for the live future `f`, where `op` and `result` are the
cells of its `Shared`: up to the take the closure is in `op`, then the worker carries it, and
from the write on the value is in `result`. -/
def Working (i : Fin c.slots) (f : c.Fut) (op : Option c.Fut) (result : Option c.Val)
    (execs : List (c.Fut × c.Val)) : WrkPc c → Prop
  | .runner j => j = i ∧ op = some f ∧ result = none
  | .take t j (.op ptr) =>
    j = i ∧ t = c.ty f ∧ ptr = some f ∧ op = some f ∧ result = none
  | .take _ _ (.unlock none) => False
  | .take t j (.unlock (some g)) =>
    j = i ∧ t = c.ty f ∧ g = f ∧ op = none ∧ result = none
  | .take t j _ => j = i ∧ t = c.ty f ∧ op = some f ∧ result = none
  | .exec t j g => j = i ∧ t = c.ty f ∧ g = f ∧ op = none ∧ result = none
  | .finish _ _ _ _ (.unlock _) => False
  | .finish t j g v (.result ptr) =>
    j = i ∧ t = c.ty f ∧ g = f ∧ op = none ∧ (f, v) ∈ execs ∧ result = none ∧ ptr = some f
  | .finish t j g v .store =>
    j = i ∧ t = c.ty f ∧ g = f ∧ op = none ∧ (f, v) ∈ execs ∧ result = some v
  | .finish t j g v _ =>
    j = i ∧ t = c.ty f ∧ g = f ∧ op = none ∧ (f, v) ∈ execs ∧ result = none
  | _ => False

/-- The owner of a slot that is `Done`: the result is in `F`, or the poll has it in hand, or
the drop has read `Done` and discards it. -/
def Collecting (i : Fin c.slots) (f : c.Fut) (F : Future c)
    (execs : List (c.Fut × c.Val)) : Prop :=
  F.op = none ∧
  ((Waiting i F ∧ ∃ v, F.result = some v ∧ (f, v) ∈ execs) ∨
  match F.pc with
  | .takeResult j => j = i ∧ ∃ v, F.result = some v ∧ (f, v) ∈ execs
  | .clearSlot j v => j = i ∧ (f, v) ∈ execs
  | .ready v (.store j) => j = i ∧ F.slot = none ∧ (f, v) ∈ execs
  | .cancel j .lock => j = i
  | .cancel j .load => j = i
  | .cancel j (.unlock false) => j = i
  | .discard false (.store j) => j = i
  | _ => False)

/-- The worker that has the slot `i` of a dropped future. -/
def Abandoned (S : Slot c) (i : Fin c.slots) : WrkPc c → Prop
  | .runner j => j = i ∧ S.runner ≠ none
  | .take _ j .lock => j = i
  | .take _ j .load => j = i
  | .take _ j (.unlock _) => j = i
  | .exec _ j _ => j = i
  | .finish _ j _ _ .lock => j = i
  | .finish _ j _ _ .load => j = i
  | .finish _ j _ _ (.unlock true) => j = i
  | .release (.store j) => j = i
  | _ => False

/-- Slot `i` is in the situation `q`. -/
def SlotInv (s : St c) (i : Fin c.slots) : Situation c → Prop
  | .free => (s.slots i).state = .free ∧ i ∉ s.queue
  | .claimed f =>
    (s.slots i).state = .claimed ∧ i ∉ s.queue ∧ Claiming (s.slots i) i f (s.fut f)
  | .sending f =>
    (s.slots i).state = .queued ∧ i ∉ s.queue ∧ Loaded (s.slots i) f (s.fut f) ∧
      (s.fut f).slot = some i ∧ ∃ w, (s.fut f).pc = .submit w i .send
  | .queued f =>
    (s.slots i).state = .queued ∧ i ∈ s.queue ∧ Loaded (s.slots i) f (s.fut f) ∧
      Waiting i (s.fut f)
  | .removed f =>
    (s.slots i).state = .queued ∧ i ∉ s.queue ∧ (s.fut f).op = some f ∧
      (s.fut f).pc = .discard true (.store i)
  | .running f k =>
    (s.slots i).state = .queued ∧ i ∉ s.queue ∧ (s.slots i).runner = some (c.ty f) ∧
      Watching (s.slots i) i f (s.fut f) ∧
      Working i f (s.fut f).op (s.fut f).result s.execs (s.wrk k)
  | .done f =>
    (s.slots i).state = .done ∧ i ∉ s.queue ∧ Collecting i f (s.fut f) s.execs
  | .orphaned k =>
    (s.slots i).state = .orphaned ∧ i ∉ s.queue ∧ Abandoned (s.slots i) i (s.wrk k)

/-- What holds of a future that owns no slot. It has its closure until its claim succeeds,
and no `slot` field that its next poll or drop could pick up. -/
def FutOk (f : c.Fut) (F : Future c) : Prop :=
  match F.pc with
  | .idle => F.slot = none → F.ready = none → F.op = some f ∧ F.result = none
  | .claim _ (.unlock (some _)) => True
  | .claim _ _ => F.slot = none ∧ F.op = some f ∧ F.result = none
  | .ready _ (.store _) => True
  | .ready _ _ => F.slot = none
  | .panicked => False
  | _ => True

/-- No worker has panicked or dereferenced a wrong pointer. -/
def WrkOk : WrkPc c → Prop
  | .panicked => False
  | .fault => False
  | _ => True

/-- The ownership invariant, for the situations `sit` of the slots. -/
structure Owned (s : St c) (sit : Fin c.slots → Situation c) : Prop where
  slot : ∀ i, SlotInv s i (sit i)
  own : ∀ f i, (s.fut f).owns = some i → (sit i).owner = some f
  hold : ∀ k i, (s.wrk k).holds = some i → (sit i).holder = some k
  nodup : s.queue.Nodup
  fut : ∀ f, FutOk f (s.fut f)
  wrk : ∀ k, WrkOk (s.wrk k)

/-- The owner that a situation names owns the slot. -/
theorem SlotInv.owns {s : St c} {i : Fin c.slots} {q : Situation c} {f : c.Fut}
    (h : SlotInv s i q) (hq : q.owner = some f) : (s.fut f).owns = some i := by
  cases q with
  | free => cases hq
  | orphaned k => cases hq
  | claimed g =>
    cases hq
    obtain ⟨-, -, -, -, hpc⟩ := h
    unfold Future.owns
    split at hpc <;> simp_all
  | sending g =>
    cases hq
    obtain ⟨-, -, -, -, w, hpc⟩ := h
    simp [Future.owns, hpc]
  | queued g =>
    cases hq
    obtain ⟨-, -, -, hslot, hpc⟩ := h
    unfold Future.owns
    split at hpc <;> simp_all
  | removed g =>
    cases hq
    obtain ⟨-, -, -, hpc⟩ := h
    simp [Future.owns, hpc]
  | running g k =>
    cases hq
    obtain ⟨-, -, -, ⟨-, hslot, hpc⟩ | hpc, -⟩ := h
    · unfold Future.owns
      split at hpc <;> simp_all
    · unfold Future.owns
      split at hpc <;> simp_all
  | done g =>
    cases hq
    obtain ⟨-, -, -, ⟨⟨hslot, hpc⟩, -⟩ | hpc⟩ := h
    · unfold Future.owns
      split at hpc <;> simp_all
    · unfold Future.owns
      split at hpc <;> simp_all

/-- The worker that a situation names has the slot. -/
theorem SlotInv.holds {s : St c} {i : Fin c.slots} {q : Situation c} {k : Fin c.threads}
    (h : SlotInv s i q) (hq : q.holder = some k) : (s.wrk k).holds = some i := by
  cases q with
  | running g j =>
    cases hq
    obtain ⟨-, -, -, -, hw⟩ := h
    unfold Working at hw
    unfold WrkPc.holds
    split at hw <;> simp_all
  | orphaned j =>
    cases hq
    obtain ⟨-, -, hw⟩ := h
    unfold Abandoned at hw
    unfold WrkPc.holds
    split at hw <;> simp_all
  | _ => cases hq

/-- A worker that runs for slot `i` is in no critical section of another slot. -/
theorem Working.inSlot {i j : Fin c.slots} {f : c.Fut} {op : Option c.Fut}
    {result : Option c.Val} {execs : List (c.Fut × c.Val)} {p : WrkPc c}
    (h : Working i f op result execs p) (hj : p.inSlot = some j) : j = i := by
  cases p with
  | take t l p =>
    cases p with
    | unlock g => cases g <;> simp_all [Working, WrkPc.inSlot]
    | _ => simp_all [Working, WrkPc.inSlot]
  | finish t l g v p => cases p <;> simp_all [Working, WrkPc.inSlot]
  | _ => cases hj

/-- A worker outside its critical sections when the owner of its slot stores `Orphaned`. -/
theorem Working.abandon {S : Slot c} {i : Fin c.slots} {f : c.Fut} {op : Option c.Fut}
    {result : Option c.Val} {execs : List (c.Fut × c.Val)} {p : WrkPc c}
    (h : Working i f op result execs p) (hout : p.inSlot = none) (hrunner : S.runner ≠ none) :
    Abandoned S i p := by
  cases p with
  | runner j => exact ⟨h.1, hrunner⟩
  | take t j p =>
    cases p with
    | lock => exact h.1
    | _ => cases hout
  | exec t j g => exact h.1
  | finish t j g v p =>
    cases p with
    | lock => exact h.1
    | _ => cases hout
  | _ => exact h.elim

/-- Two slots agree on the fields that `SlotInv` reads: all but the lock and the waker. -/
structure Slot.Agree (S' S : Slot c) : Prop where
  state : S'.state = S.state
  shared : S'.shared = S.shared
  runner : S'.runner = S.runner

theorem Slot.Agree.refl (S : Slot c) : S.Agree S := ⟨rfl, rfl, rfl⟩

/-- An update of a slot's lock or waker changes nothing for any slot. -/
theorem Slot.Agree.of_update {slots slots' : Fin c.slots → Slot c} {i j : Fin c.slots}
    {S : Slot c} (h : slots' = Function.update slots i S) (hS : S.Agree (slots i)) :
    (slots' j).Agree (slots j) := by
  rw [h, Function.update_apply]
  split
  · rename_i hj
    rwa [hj]
  · exact .refl _

/-- `SlotInv` reads the state, the pointer and the runner of slot `i`, the owner, the
worker, whether `i` is queued, and the executions, of which there may be more. -/
theorem SlotInv.congr {s s' : St c} {i : Fin c.slots} {q : Situation c}
    (h : SlotInv s i q) (hslot : (s'.slots i).Agree (s.slots i))
    (hqueue : i ∈ s'.queue ↔ i ∈ s.queue) (hexecs : s.execs ⊆ s'.execs)
    (hfut : ∀ f, q.owner = some f → s'.fut f = s.fut f)
    (hwrk : ∀ k, q.holder = some k → s'.wrk k = s.wrk k) : SlotInv s' i q := by
  obtain ⟨hstate, hshared, hrunner⟩ := hslot
  cases q with
  | running f k =>
    obtain ⟨hst, hq, hr, hwatch, hwork⟩ := h
    refine ⟨by rw [hstate]; exact hst, by rw [hqueue]; exact hq, by rw [hrunner]; exact hr,
      ?_, ?_⟩
    · simpa only [Watching, hshared, hfut f rfl] using hwatch
    · rw [hfut f rfl, hwrk k rfl]
      -- More executions keep the one that the worker has to its name.
      unfold Working at hwork ⊢
      split at hwork <;> grind
  | done f =>
    obtain ⟨hst, hq, hop, hcol⟩ := h
    refine ⟨by rw [hstate]; exact hst, by rw [hqueue]; exact hq, ?_⟩
    rw [hfut f rfl]
    refine ⟨hop, ?_⟩
    rcases hcol with ⟨hw, v, hv, hx⟩ | hcol
    · exact Or.inl ⟨hw, v, hv, hexecs hx⟩
    · refine Or.inr ?_
      split at hcol <;> grind
  | orphaned k =>
    obtain ⟨hst, hq, hab⟩ := h
    refine ⟨by rw [hstate]; exact hst, by rw [hqueue]; exact hq, ?_⟩
    rw [hwrk k rfl]
    unfold Abandoned at hab ⊢
    rwa [hrunner]
  | free => simpa only [SlotInv, hstate, hqueue] using h
  | claimed f =>
    simpa only [SlotInv, Claiming, hstate, hshared, hrunner, hqueue, hfut f rfl] using h
  | sending f | queued f =>
    simpa only [SlotInv, Loaded, hstate, hshared, hrunner, hqueue, hfut f rfl] using h
  | removed f => simpa only [SlotInv, hstate, hqueue, hfut f rfl] using h

/-- A step touches at most slot `i` when each future that it changes owns no other slot
before and after, and each worker that it changes has no other slot in its hands. Such a
step keeps the invariant when slot `i` is in a situation `q` after it that names the
parties which then refer to `i`. -/
theorem Owned.move {s s' : St c} {sit : Fin c.slots → Situation c} (h : Owned s sit)
    (i : Fin c.slots) (q : Situation c)
    (hslots : ∀ j, j ≠ i → (s'.slots j).Agree (s.slots j))
    (hqueue : ∀ j, j ≠ i → (j ∈ s'.queue ↔ j ∈ s.queue)) (hnodup : s'.queue.Nodup)
    (hexecs : s.execs ⊆ s'.execs)
    (hfut : ∀ g, s'.fut g = s.fut g ∨ ((∀ j, (s.fut g).owns = some j → j = i) ∧
      (∀ j, (s'.fut g).owns = some j → j = i) ∧ FutOk g (s'.fut g)))
    (hwrk : ∀ k, s'.wrk k = s.wrk k ∨ ((∀ j, (s.wrk k).holds = some j → j = i) ∧
      (∀ j, (s'.wrk k).holds = some j → j = i) ∧ WrkOk (s'.wrk k)))
    (hown : ∀ g, (s'.fut g).owns = some i → q.owner = some g)
    (hhold : ∀ k, (s'.wrk k).holds = some i → q.holder = some k)
    (hslot : SlotInv s' i q) : Owned s' (Function.update sit i q) where
  slot j := by
    by_cases hj : j = i
    · subst hj
      rwa [Function.update_self]
    · rw [Function.update_of_ne hj]
      refine (h.slot j).congr (hslots j hj) (hqueue j hj) hexecs (fun f hf => ?_)
        (fun k hk => ?_)
      -- A party that changes refers to `i` only, so the parties of `j` stay.
      · rcases hfut f with he | ⟨hb, -, -⟩
        · exact he
        · exact absurd (hb j ((h.slot j).owns hf)) hj
      · rcases hwrk k with he | ⟨hb, -, -⟩
        · exact he
        · exact absurd (hb j ((h.slot j).holds hk)) hj
  own f j hf := by
    by_cases hj : j = i
    · subst hj
      rw [Function.update_self]
      exact hown f hf
    · rw [Function.update_of_ne hj]
      rcases hfut f with he | ⟨-, ha, -⟩
      · exact h.own f j (he ▸ hf)
      · exact absurd (ha j hf) hj
  hold k j hk := by
    by_cases hj : j = i
    · subst hj
      rw [Function.update_self]
      exact hhold k hk
    · rw [Function.update_of_ne hj]
      rcases hwrk k with he | ⟨-, ha, -⟩
      · exact h.hold k j (he ▸ hk)
      · exact absurd (ha j hk) hj
  nodup := hnodup
  fut f := by
    rcases hfut f with he | ⟨-, -, hok⟩
    · exact he ▸ h.fut f
    · exact hok
  wrk k := by
    rcases hwrk k with he | ⟨-, -, hok⟩
    · exact he ▸ h.wrk k
    · exact hok

/-- A step that touches no slot, by parties that hold none, keeps the invariant. -/
theorem Owned.rest {s s' : St c} {sit : Fin c.slots → Situation c} (h : Owned s sit)
    (hslots : ∀ j, (s'.slots j).Agree (s.slots j)) (hqueue : s'.queue = s.queue)
    (hexecs : s'.execs = s.execs)
    (hfut : ∀ g, s'.fut g = s.fut g ∨ ((s.fut g).owns = none ∧ (s'.fut g).owns = none ∧
      FutOk g (s'.fut g)))
    (hwrk : ∀ k, s'.wrk k = s.wrk k ∨ ((s.wrk k).holds = none ∧ (s'.wrk k).holds = none ∧
      WrkOk (s'.wrk k))) : Owned s' sit where
  slot j := by
    refine (h.slot j).congr (hslots j) (by rw [hqueue]) (by rw [hexecs]; simp)
      (fun f hf => ?_) (fun k hk => ?_)
    · rcases hfut f with he | ⟨hn, -, -⟩
      · exact he
      · exact absurd ((h.slot j).owns hf) (by simp [hn])
    · rcases hwrk k with he | ⟨hn, -, -⟩
      · exact he
      · exact absurd ((h.slot j).holds hk) (by simp [hn])
  own f j hf := by
    rcases hfut f with he | ⟨-, hn, -⟩
    · exact h.own f j (he ▸ hf)
    · exact absurd hf (by simp [hn])
  hold k j hk := by
    rcases hwrk k with he | ⟨-, hn, -⟩
    · exact h.hold k j (he ▸ hk)
    · exact absurd hk (by simp [hn])
  nodup := hqueue ▸ h.nodup
  fut f := by
    rcases hfut f with he | ⟨-, -, hok⟩
    · exact he ▸ h.fut f
    · exact hok
  wrk k := by
    rcases hwrk k with he | ⟨-, -, hok⟩
    · exact he ▸ h.wrk k
    · exact hok

/-- An operation of `f` on the slot `i` that it owns. The worker of the slot stays. -/
theorem Owned.futAt {s s' : St c} {sit : Fin c.slots → Situation c} (h : Owned s sit)
    {f : c.Fut} {i : Fin c.slots} (q : Situation c) {F : Future c}
    (hi : (s.fut f).owns = some i) (hfut : s'.fut = Function.update s.fut f F)
    (hwrk : s'.wrk = s.wrk) (hslots : ∀ j, j ≠ i → (s'.slots j).Agree (s.slots j))
    (hqueue : ∀ j, j ≠ i → (j ∈ s'.queue ↔ j ∈ s.queue)) (hnodup : s'.queue.Nodup)
    (hexecs : s'.execs = s.execs)
    (hF : F.owns = none ∨ F.owns = some i ∧ q.owner = some f)
    (hholder : q.holder = (sit i).holder) (hok : FutOk f F) (hslot : SlotInv s' i q) :
    Owned s' (Function.update sit i q) := by
  have hself : s'.fut f = F := by rw [hfut, Function.update_self]
  have hother : ∀ g, g ≠ f → s'.fut g = s.fut g := fun g hg => by
    rw [hfut, Function.update_of_ne hg]
  refine h.move i q hslots hqueue hnodup (by rw [hexecs]; simp) (fun g => ?_)
    (fun k => Or.inl (by rw [hwrk])) (fun g hg => ?_) (fun k hk => ?_) hslot
  · by_cases hg : g = f
    · subst hg
      refine Or.inr ⟨fun j hj => ?_, fun j hj => ?_, hself ▸ hok⟩
      · exact Option.some.inj (hj.symm.trans hi)
      · rw [hself] at hj
        rcases hF with hn | ⟨hs, -⟩
        · simp [hn] at hj
        · exact Option.some.inj (hj.symm.trans hs)
    · exact Or.inl (hother g hg)
  · by_cases hg' : g = f
    · subst hg'
      rw [hself] at hg
      rcases hF with hn | ⟨-, ho⟩
      · simp [hn] at hg
      · exact ho
    · rw [hother g hg'] at hg
      -- Two owners of one slot: the situation names only one.
      have := (h.own g i hg).symm.trans (h.own f i hi)
      simp [hg'] at this
  · rw [hholder]
    exact h.hold k i (hwrk ▸ hk)

/-- An operation of worker `k` on the slot `i` that it has in its hands. It may write to the
`Shared` of the future `g`, which stays where it is. -/
theorem Owned.wrkAt {s s' : St c} {sit : Fin c.slots → Situation c} (h : Owned s sit)
    {k : Fin c.threads} {i : Fin c.slots} (q : Situation c) {p : WrkPc c}
    (hi : (s.wrk k).holds = some i) (hwrk : s'.wrk = Function.update s.wrk k p)
    (hfut : ∀ g, s'.fut g = s.fut g ∨ (s.fut g).owns = some i ∧ (s'.fut g).owns = some i ∧
      FutOk g (s'.fut g))
    (hslots : ∀ j, j ≠ i → (s'.slots j).Agree (s.slots j)) (hqueue : s'.queue = s.queue)
    (hexecs : s.execs ⊆ s'.execs)
    (hp : p.holds = none ∨ p.holds = some i ∧ q.holder = some k)
    (howner : q.owner = (sit i).owner) (hok : WrkOk p) (hslot : SlotInv s' i q) :
    Owned s' (Function.update sit i q) := by
  have hself : s'.wrk k = p := by rw [hwrk, Function.update_self]
  have hother : ∀ j, j ≠ k → s'.wrk j = s.wrk j := fun j hj => by
    rw [hwrk, Function.update_of_ne hj]
  refine h.move i q hslots (fun j _ => by rw [hqueue]) (hqueue ▸ h.nodup) hexecs
    (fun g => ?_) (fun j => ?_) (fun g hg => ?_) (fun j hj => ?_) hslot
  · rcases hfut g with he | ⟨hb, ha, hok⟩
    · exact Or.inl he
    · exact Or.inr ⟨fun j hj => Option.some.inj (hj.symm.trans hb),
        fun j hj => Option.some.inj (hj.symm.trans ha), hok⟩
  · by_cases hj : j = k
    · subst hj
      refine Or.inr ⟨fun l hl => Option.some.inj (hl.symm.trans hi), fun l hl => ?_,
        hself ▸ hok⟩
      rw [hself] at hl
      rcases hp with hn | ⟨hs, -⟩
      · simp [hn] at hl
      · exact Option.some.inj (hl.symm.trans hs)
    · exact Or.inl (hother j hj)
  · rw [howner]
    rcases hfut g with he | ⟨hb, -, -⟩
    · exact h.own g i (he ▸ hg)
    · exact h.own g i hb
  · by_cases hj' : j = k
    · subst hj'
      rw [hself] at hj
      rcases hp with hn | ⟨-, ho⟩
      · simp [hn] at hj
      · exact ho
    · rw [hother j hj'] at hj
      -- Two workers with one slot: the situation names only one.
      have := (h.hold j i hj).symm.trans (h.hold k i hi)
      simp [hj'] at this

end ZephyrRust.Blocking
