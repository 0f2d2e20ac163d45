import ZephyrRust.Channel
import ZephyrRust.Channel.Counter

/-!
# `ZephyrRust.Proofs.Channel.Counter`: drops of the handles of a channel

The closure that a drop site gives to `release` always panics, so the channel is never freed and the
remaining handles can use it (`Inv`). But the closure is called by the drop that takes the count of
its own kind to 0. The documentation of the module wants the panic only for the last handle of both
kinds. `drops_follow_rule` has the runs where the two agree: those where no drop takes a count to 0
while there are handles at the other end.
-/

set_option autoImplicit false

namespace ZephyrRust.Channel.Counter

open ZephyrRust.Lib (System)

variable {Tid C A : Type}

/-- A drop that panics: it is in the closure of its drop site, or it has panicked. -/
def Pc.dropPanics : Pc → Bool
  | .disconnect _ | .panicked _ => true
  | _ => false

/-- Only the drop of the last handle of both kinds panics. -/
def OnlyLast (s : St Tid C) : Prop :=
  ∀ t, (s.pc t).dropPanics = true → ∀ side, s.live side = 0

/-- The handles that remain can use the channel: it is not freed, and an operation through a handle
is the operation of the channel itself, which is in one of its states. -/
def Usable (M : System C A) (s : St Tid C) : Prop :=
  M.Reachable s.chan ∧ ∀ side a, 0 < s.live side →
    s.op M side a = (M.step s.chan a).map fun chan => { s with chan := chan }

/-- The step is no drop that takes a count to 0 while there are handles at the other end. -/
def KeepsBoth (s : St Tid C) : Act Tid A → Prop
  | .drop _ side => s.count side = 1 → s.live side.other = 0
  | _ => True

instance (s : St Tid C) (a : Act Tid A) : Decidable (KeepsBoth s a) :=
  match a with
  | .drop _ side => inferInstanceAs (Decidable (s.count side = 1 → s.live side.other = 0))
  | .clone _ _ => .isTrue trivial
  | .next _ => .isTrue trivial
  | .op _ _ => .isTrue trivial

/-- What holds in every run: the channel is not freed, and each handle is counted. -/
structure Inv (M : System C A) (s : St Tid C) : Prop where
  freed : s.freed = false
  pc : ∀ t, s.pc t ≠ .destroy ∧ s.pc t ≠ .free
  live : ∀ side, s.live side ≤ s.count side
  chan : M.Reachable s.chan

variable {M : System C A} {s s' : St Tid C} {t : Tid} {side : Side}

theorem Inv.usable (h : Inv M s) : Usable M s := by
  refine ⟨h.chan, fun side a hlive => ?_⟩
  rw [St.op, if_pos ⟨hlive, h.freed⟩]

variable [DecidableEq Tid]

/-- The place of a thread after a step of one thread. -/
theorem pc_update {P : Pc → Prop} {pc : Pc} (hpc : P pc) (h : ∀ u, P (s.pc u)) (u : Tid) :
    P (Function.update s.pc t pc u) := by
  by_cases hu : u = t
  · rw [hu, Function.update_self]
    exact hpc
  · rw [Function.update_of_ne hu]
    exact h u

/-! ## Steps -/

/-- What a clone does. -/
theorem clone_eq {isizeMax : Nat} (hs : s.clone isizeMax t side = some s') :
    0 < s.live side ∧
    (s' =
        { s with count := Function.update s.count side (s.count side + 1) }.setPc t .unimplemented ∨
      s' = { s with
        count := Function.update s.count side (s.count side + 1)
        live := Function.update s.live side (s.live side + 1) }) := by
  unfold St.clone at hs
  split at hs
  · rename_i hcan
    refine ⟨hcan.2, ?_⟩
    split at hs
    · exact .inl (Option.some.inj hs).symm
    · exact .inr (Option.some.inj hs).symm
  · cases hs

/-- The handles after the `fetch_sub` of a drop. -/
def St.dropped (s : St Tid C) (side : Side) : St Tid C :=
  { s with
    count := Function.update s.count side (s.count side - 1)
    live := Function.update s.live side (s.live side - 1) }

/-- What the `fetch_sub` of a drop does. -/
theorem drop_eq (hs : s.drop t side = some s') :
    0 < s.live side ∧
    ((s.count side = 1 ∧ s' = (s.dropped side).setPc t (.disconnect side)) ∨
      (s.count side ≠ 1 ∧ s' = s.dropped side)) := by
  unfold St.drop at hs
  split at hs
  · rename_i hcan
    refine ⟨hcan.2, ?_⟩
    split at hs
    · rename_i hlast
      exact .inl ⟨hlast, (Option.some.inj hs).symm⟩
    · rename_i hmore
      exact .inr ⟨hmore, (Option.some.inj hs).symm⟩
  · cases hs

/-- What the closure of a drop site does. -/
theorem next_disconnect (flavor : Flavor) (hpc : s.pc t = .disconnect side) :
    ∃ message, s.next flavor t = some (s.setPc t (.panicked message)) := by
  simp only [St.next, hpc]
  cases flavor <;> cases side <;> exact ⟨_, rfl⟩

/-- No drop gets past its closure. -/
theorem next_eq {flavor : Flavor} (hpc : ∀ t, s.pc t ≠ .destroy ∧ s.pc t ≠ .free)
    (hs : s.next flavor t = some s') :
    ∃ side message, s.pc t = .disconnect side ∧ s' = s.setPc t (.panicked message) := by
  cases hat : s.pc t with
  | disconnect side =>
    obtain ⟨message, hnext⟩ := next_disconnect flavor hat
    exact ⟨side, message, rfl, Option.some.inj (hs.symm.trans hnext)⟩
  | destroy => exact absurd hat (hpc t).1
  | free => exact absurd hat (hpc t).2
  | idle | unimplemented | panicked message =>
    simp only [St.next, hat] at hs
    cases hs

omit [DecidableEq Tid] in
theorem op_eq {a : A} (hs : s.op M side a = some s') :
    ∃ chan, M.step s.chan a = some chan ∧ s' = { s with chan := chan } := by
  unfold St.op at hs
  split at hs
  · obtain ⟨chan, hchan, rfl⟩ := Option.map_eq_some_iff.mp hs
    exact ⟨chan, hchan, rfl⟩
  · cases hs

/-! ## Invariants -/

omit [DecidableEq Tid] in
/-- One count and the number of its handles change together. -/
theorem live_update (side : Side) (f : Nat → Nat) (hf : ∀ m n, m ≤ n → f m ≤ f n)
    (h : ∀ side, s.live side ≤ s.count side) (side' : Side) :
    Function.update s.live side (f (s.live side)) side' ≤
      Function.update s.count side (f (s.count side)) side' := by
  by_cases hside : side' = side
  · rw [hside, Function.update_self, Function.update_self]
    exact hf _ _ (h side)
  · rw [Function.update_of_ne hside, Function.update_of_ne hside]
    exact h side'

theorem Inv.clone (h : Inv M s) {isizeMax : Nat} (hs : s.clone isizeMax t side = some s') :
    Inv M s' := by
  obtain ⟨-, rfl | rfl⟩ := clone_eq hs
  · refine ⟨h.freed, pc_update (P := fun pc => pc ≠ .destroy ∧ pc ≠ .free) (by decide) h.pc, ?_,
      h.chan⟩
    intro side'
    show s.live side' ≤ Function.update s.count side (s.count side + 1) side'
    by_cases hside : side' = side
    · rw [hside, Function.update_self]
      exact Nat.le_succ_of_le (h.live side)
    · rw [Function.update_of_ne hside]
      exact h.live side'
  · exact ⟨h.freed, h.pc, live_update side _ (fun _ _ => Nat.succ_le_succ) h.live, h.chan⟩

theorem Inv.drop (h : Inv M s) (hs : s.drop t side = some s') : Inv M s' := by
  have hlive := live_update side (fun n => n - 1) (fun _ _ hle => Nat.sub_le_sub_right hle 1) h.live
  obtain ⟨-, ⟨-, rfl⟩ | ⟨-, rfl⟩⟩ := drop_eq hs
  · exact ⟨h.freed, pc_update (P := fun pc => pc ≠ .destroy ∧ pc ≠ .free)
      ⟨Pc.noConfusion, Pc.noConfusion⟩ h.pc, hlive, h.chan⟩
  · exact ⟨h.freed, h.pc, hlive, h.chan⟩

theorem Inv.step {flavor : Flavor} {isizeMax : Nat} {a : Act Tid A} (h : Inv M s)
    (hs : (handles Tid flavor isizeMax M).step s a = some s') : Inv M s' := by
  cases a with
  | clone t side => exact h.clone hs
  | drop t side => exact h.drop hs
  | next t =>
    obtain ⟨side, message, -, rfl⟩ := next_eq h.pc hs
    exact ⟨h.freed, pc_update (P := fun pc => pc ≠ .destroy ∧ pc ≠ .free)
      ⟨Pc.noConfusion, Pc.noConfusion⟩ h.pc, h.live, h.chan⟩
  | op side a =>
    obtain ⟨chan, hchan, rfl⟩ := op_eq hs
    exact ⟨h.freed, h.pc, h.live, h.chan.next hchan⟩

theorem Inv.init {flavor : Flavor} {isizeMax : Nat} :
    Inv M (handles Tid flavor isizeMax M).init where
  freed := rfl
  pc := fun _ => ⟨Pc.noConfusion, Pc.noConfusion⟩
  live := fun _ => Nat.le_refl 1
  chan := .start

omit [DecidableEq Tid] in
/-- A handle is left, so no drop has panicked. -/
theorem OnlyLast.none_of_live (h : OnlyLast s) (hlive : 0 < s.live side) (t : Tid) :
    (s.pc t).dropPanics = false := by
  by_contra hpanic
  rw [Bool.not_eq_false] at hpanic
  rw [h t hpanic side] at hlive
  exact Nat.lt_irrefl 0 hlive

omit [DecidableEq Tid] in
theorem OnlyLast.of_none (h : ∀ t, (s.pc t).dropPanics = false) : OnlyLast s := by
  intro t hpanic
  rw [h t] at hpanic
  cases hpanic

omit [DecidableEq Tid] in
/-- The last handle is counted once. After its drop there is none when there was none at the other
end. -/
theorem Inv.dropped_live (h : Inv M s) (hlast : s.count side = 1) (hother : s.live side.other = 0)
    (side' : Side) : (s.dropped side).live side' = 0 := by
  show Function.update s.live side (s.live side - 1) side' = 0
  by_cases hside : side' = side
  · rw [hside, Function.update_self]
    have hle := h.live side
    omega
  · rw [Function.update_of_ne hside]
    have hside' : side' = side.other := by
      cases side <;> cases side' <;> first | rfl | exact absurd rfl hside
    rw [hside']
    exact hother

/-- The condition makes a drop panic only at the end. -/
theorem OnlyLast.step {flavor : Flavor} {isizeMax : Nat} {a : Act Tid A} (h : OnlyLast s)
    (hinv : Inv M s) (ha : KeepsBoth s a)
    (hs : (handles Tid flavor isizeMax M).step s a = some s') : OnlyLast s' := by
  cases a with
  | clone t side =>
    obtain ⟨hpos, rfl | rfl⟩ := clone_eq hs
    · exact .of_none (pc_update (P := fun pc => pc.dropPanics = false) rfl (h.none_of_live hpos))
    · exact .of_none (h.none_of_live hpos)
  | drop t side =>
    obtain ⟨hpos, ⟨hlast, rfl⟩ | ⟨-, rfl⟩⟩ := drop_eq hs
    · -- This drop panics later, and there is no handle left.
      exact fun _ _ => hinv.dropped_live hlast (ha hlast)
    · exact .of_none (h.none_of_live hpos)
  | next t =>
    obtain ⟨side, message, hpc, rfl⟩ := next_eq hinv.pc hs
    have hnone := h t (by rw [hpc]; rfl)
    exact fun _ _ => hnone
  | op side a =>
    obtain ⟨chan, -, rfl⟩ := op_eq hs
    exact h

/-- A drop against the condition panics while there are handles at the other end. -/
theorem panics_of_not_keepsBoth (flavor : Flavor) {isizeMax : Nat} {a : Act Tid A}
    (ha : ¬KeepsBoth s a) (hs : (handles Tid flavor isizeMax M).step s a = some s') :
    ∃ t s'' message, (handles Tid flavor isizeMax M).step s' (.next t) = some s'' ∧
      s''.pc t = .panicked message ∧ ¬OnlyLast s'' := by
  cases a with
  | drop t side =>
    obtain ⟨hlast, hother⟩ := Classical.not_imp.mp ha
    obtain ⟨-, ⟨-, rfl⟩ | ⟨hmore, -⟩⟩ := drop_eq hs
    · have hat : ((s.dropped side).setPc t (.disconnect side)).pc t = .disconnect side :=
        Function.update_self t _ s.pc
      obtain ⟨message, hnext⟩ := next_disconnect flavor hat
      have hpanicked : Function.update (Function.update s.pc t (.disconnect side)) t
          (.panicked message) t = .panicked message := Function.update_self t _ _
      refine ⟨t, _, message, hnext, hpanicked, fun honly => ?_⟩
      -- The drop has not changed the number of handles at the other end.
      have hzero : Function.update s.live side (s.live side - 1) side.other = 0 :=
        honly t (congrArg Pc.dropPanics hpanicked) side.other
      have hne : side.other ≠ side := by cases side <;> exact Side.noConfusion
      rw [Function.update_of_ne hne] at hzero
      exact hother hzero
    · exact absurd hlast hmore
  | clone t side => exact absurd trivial ha
  | next t => exact absurd trivial ha
  | op side a => exact absurd trivial ha

/-- In the runs where no drop takes a count to 0 while there are handles at the other end, only the
drop of the last handle of both kinds panics, and the channel stays usable. Every drop against this
condition panics while there are handles at the other end. -/
theorem drops_follow_rule (flavor : Flavor) (isizeMax : Nat) (M : System C A) :
    (∀ s : St Tid C, (handles Tid flavor isizeMax M).ReachableBy KeepsBoth s →
      OnlyLast s ∧ Usable M s) ∧
    ∀ (s : St Tid C) (a : Act Tid A) (s' : St Tid C), ¬KeepsBoth s a →
      (handles Tid flavor isizeMax M).step s a = some s' →
      ∃ t s'' message, (handles Tid flavor isizeMax M).step s' (.next t) = some s'' ∧
        s''.pc t = .panicked message ∧ ¬OnlyLast s'' := by
  refine ⟨fun s h => ?_, fun s a s' ha hs => panics_of_not_keepsBoth flavor ha hs⟩
  have hboth : Inv M s ∧ OnlyLast s := by
    refine h.invariant (I := fun s => Inv M s ∧ OnlyLast s) ⟨.init, .of_none fun _ => rfl⟩ ?_
    intro s a s' hs ha hstep
    exact ⟨hs.1.step hstep, hs.2.step hs.1 ha hstep⟩
  exact ⟨hboth.2, hboth.1.usable⟩

/-- A run of a bounded channel with a clone and a drop of each kind. -/
theorem drops_follow_rule_cloned :
    ∃ s : St (Fin 2) (Channel.St (Fin 2) Nat 1), (∀ side, s.live side = 1) ∧
      OnlyLast s ∧ Usable (channel (Fin 2) (Bounded.new Nat 1)) s := by
  obtain ⟨s, hr, hs⟩ := (handles (Fin 2) .bounded 100
      (channel (Fin 2) (Bounded.new Nat 1))).reachableBy_of_execBy (P := KeepsBoth)
    [.clone 0 .sender, .clone 1 .receiver, .op .sender (.sendTimeout 0 5 .noWait), .drop 1 .sender,
      .drop 0 .receiver]
    (fun s => decide (s.live .sender = 1 ∧ s.live .receiver = 1)) (by decide +kernel)
  obtain ⟨hsender, hreceiver⟩ := of_decide_eq_true hs
  refine ⟨s, fun side => ?_, (drops_follow_rule .bounded 100 _).1 s hr⟩
  cases side
  · exact hsender
  · exact hreceiver

/-- The drop of the only `Sender` of a bounded channel panics while its `Receiver` is there. -/
theorem last_sender_panics :
    ∃ s, (handles (Fin 1) .bounded 100 (channel (Fin 1) (Bounded.new Nat 1))).Reachable s ∧
      s.pc 0 = .panicked "Bounded queues cannot currently be dropped" ∧ s.live .receiver = 1 ∧
      ¬OnlyLast s := by
  obtain ⟨s, hr, hs⟩ := (handles (Fin 1) .bounded 100
      (channel (Fin 1) (Bounded.new Nat 1))).reachable_of_exec [.drop 0 .sender, .next 0]
    (fun s => decide (s.pc 0 = .panicked "Bounded queues cannot currently be dropped" ∧
      s.live .receiver = 1)) (by decide +kernel)
  obtain ⟨hpc, hlive⟩ := of_decide_eq_true hs
  refine ⟨s, hr, hpc, hlive, fun honly => ?_⟩
  have hzero := honly 0 (by rw [hpc]; rfl) .receiver
  rw [hlive] at hzero
  cases hzero

end ZephyrRust.Channel.Counter
