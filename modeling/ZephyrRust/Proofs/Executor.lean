import ZephyrRust.Executor

/-!
# `ZephyrRust.Proofs.Executor`: queued work wakes the executor

A give is made only by the party that finds the run queue empty, and a give at the limit is
discarded. So one give has to serve for everything that is queued until the next poll. `Covered`
says who brings the executor to that poll: the count of the semaphore, a take that has already
returned, or a give that is still to come. Every step keeps the queue covered (`Inv.step`). The
step that uses up the count is the take, and it ends before the poll. The step that ends the poll's
cover is the one that empties the queue. And a give that finds no waiting thread leaves the count
at the limit, whether it is discarded or not.
-/

set_option autoImplicit false

namespace ZephyrRust.Executor

open ZephyrRust.Lib (System)
open ZephyrRust.Sys (Semaphore)

variable {Tid Task : Type}

/-- The executor is going to poll: the count lets its take through, or its take has returned and
the queue is not emptied yet, or a party has enqueued and its give is next. -/
def Covered (s : St Tid Task) : Prop :=
  0 < s.pollNeeded.count ∨ s.pc = .poll ∨ ∃ p, s.enq p = .pender

/-- The invariant. The executor thread is the only one that takes the semaphore, and it waits only
while the count is 0. -/
structure Inv (s : St Tid Task) : Prop where
  limit : s.pollNeeded.limit = 1
  blocked : s.pc = .blocked →
    s.pollNeeded.count = 0 ∧ s.pollNeeded.waiters = [.executor]
  awake : s.pc ≠ .blocked → s.pollNeeded.waiters = []
  covered : s.runQueue ≠ [] → Covered s

variable {s s' : St Tid Task}

/-- The semaphore is untouched, and the executor is at another place where it does not wait. -/
theorem Inv.setPc (h : Inv s) (hpc : s.pc ≠ .blocked) {q : List Task} {pc : Pc Task}
    (hpc' : pc ≠ .blocked)
    (hcov : q ≠ [] → Covered { s with runQueue := q, pc := pc }) :
    Inv { s with runQueue := q, pc := pc } :=
  { limit := h.limit
    blocked := fun hb => absurd hb hpc'
    awake := fun _ => h.awake hpc
    covered := hcov }

variable [DecidableEq Tid]

/-- An enqueue into a queue with tasks leaves the cover as it is, and an enqueue into an empty
queue has its give to come. -/
theorem Inv.enqueue (h : Inv s) {p : Party Tid} {task : Task}
    (hs : s.enqueue p task = some s') : Inv s' := by
  simp only [St.enqueue] at hs
  split at hs
  · split at hs
    · cases hs
      refine ⟨h.limit, h.blocked, h.awake, fun _ => ?_⟩
      refine Or.inr (Or.inr ⟨p, ?_⟩)
      show Function.update s.enq p .pender p = .pender
      exact Function.update_self p Enqueue.pender s.enq
    · -- The party that has found the queue empty gives for this task too.
      rename_i hne
      cases hs
      refine ⟨h.limit, h.blocked, h.awake, fun _ => ?_⟩
      exact h.covered fun hnil => hne (by rw [hnil]; rfl)
  · cases hs

/-- A give lets the executor through: it wakes the executor, or it leaves a count. -/
theorem Inv.pender (h : Inv s) {p : Party Tid} (hs : s.pender p = some s') : Inv s' := by
  unfold St.pender at hs
  split at hs
  · cases hs
  · obtain rfl := Option.some.inj hs
    by_cases hb : s.pc = .blocked
    · have hw := (h.blocked hb).2
      rw [Semaphore.give_of_cons hw]
      exact ⟨h.limit, fun hpc => (nomatch hpc), fun _ => rfl, fun _ => Or.inr (Or.inl rfl)⟩
    · -- Nobody waits, so the next take finds the count.
      have hpos : 0 < s.pollNeeded.limit := by
        rw [h.limit]
        exact Nat.one_pos
      obtain ⟨hwoken, hcount, hlimit, hwait⟩ := Semaphore.give_of_nil (h.awake hb) hpos
      rw [hwoken]
      exact ⟨hlimit.trans h.limit, fun hpc => absurd hpc hb, fun _ => hwait,
        fun _ => Or.inl hcount⟩

omit [DecidableEq Tid] in
/-- A take goes on to the poll, or it waits and the give is still to come. -/
theorem Inv.take (h : Inv s) (hpc : s.pc = .take) :
    Inv { s with
      pollNeeded := (s.pollNeeded.take .executor).2
      pc := if (s.pollNeeded.take .executor).1 then .poll else .blocked } := by
  have hb : s.pc ≠ .blocked := by
    rw [hpc]
    exact fun hc => nomatch hc
  rcases Nat.eq_zero_or_pos s.pollNeeded.count with hz | hpos
  · rw [Semaphore.take_of_zero _ hz]
    refine ⟨h.limit, fun _ => ⟨hz, ?_⟩, fun hne => absurd rfl hne, fun hq => ?_⟩
    · show s.pollNeeded.waiters ++ [.executor] = [.executor]
      rw [h.awake hb]
      rfl
    · -- The count is 0 and the poll is over, so the cover is a give to come.
      rcases h.covered hq with hc | hc | hc
      · omega
      · rw [hpc] at hc
        cases hc
      · exact Or.inr (Or.inr hc)
  · obtain ⟨hnow, -, hlimit, hwait⟩ := Semaphore.take_of_pos (.executor : Party Tid) hpos
    rw [hnow]
    exact ⟨hlimit.trans h.limit, fun hc => (nomatch hc), fun _ => hwait.trans (h.awake hb),
      fun _ => Or.inr (Or.inl rfl)⟩

omit [DecidableEq Tid] in
/-- The executor thread keeps the invariant. -/
theorem Inv.next (h : Inv s) (hs : s.next = some s') : Inv s' := by
  unfold St.next at hs
  split at hs
  · cases hs
  · -- The cover of a state that is not at the poll does not depend on the place.
    have hmove : ∀ pc : Pc Task, s.pc ≠ .blocked → s.pc ≠ .poll → pc ≠ .blocked →
        Inv { s with pc := pc } := by
      intro pc hb hp hb'
      refine h.setPc hb hb' fun hq => ?_
      rcases h.covered hq with hc | hc | hc
      · exact Or.inl hc
      · exact absurd hc hp
      · exact Or.inr (Or.inr hc)
    split at hs
    · rename_i hpc
      cases hs
      exact hmove .take (by simp [hpc]) (by simp [hpc]) (by simp)
    · rename_i hpc
      obtain rfl := Option.some.inj hs
      exact h.take hpc
    · cases hs
    · rename_i hpc
      cases hs
      exact h.setPc (by simp [hpc]) (by simp) fun hq => absurd rfl hq
    · rename_i hpc
      cases hs
      exact hmove .take (by simp [hpc]) (by simp [hpc]) (by simp)
    · rename_i task tasks hpc
      cases hs
      exact hmove (.run tasks) (by simp [hpc]) (by simp [hpc]) (by simp)

/-- Every step keeps the invariant. -/
theorem Inv.step (h : Inv s) {a : Act Tid Task} (hs : (executor Tid Task).step s a = some s') :
    Inv s' := by
  cases a with
  | enqueue p task => exact h.enqueue hs
  | pender p => exact h.pender hs
  | next => exact h.next hs

/-- The invariant holds in every reachable state. -/
theorem Inv.of_reachable (h : (executor Tid Task).Reachable s) : Inv s := by
  refine h.invariant ⟨rfl, fun hc => (nomatch hc), fun _ => rfl, fun hq => absurd rfl hq⟩ ?_
  intro s a s' hi hs
  exact hi.step hs

/-- The executor never sleeps on queued work, in every state of every run. While the run queue has
tasks, `poll_needed` has the count 1, or the take of the executor has returned and the poll has not
emptied the queue, or a party has added its task and its give is next. If the executor waits in its
take, it is the last of these. -/
theorem never_sleeps_on_queued_work (h : (executor Tid Task).Reachable s)
    (hq : s.runQueue ≠ []) :
    (s.pollNeeded.count = 1 ∨ s.pc = .poll ∨ ∃ p, s.enq p = .pender) ∧
    (s.pc = .blocked → ∃ p, s.enq p = .pender) := by
  have hi := Inv.of_reachable h
  have hle := s.pollNeeded.count_le
  rw [hi.limit] at hle
  constructor
  · rcases hi.covered hq with hc | hc
    · exact Or.inl (by omega)
    · exact Or.inr hc
  · intro hb
    rcases hi.covered hq with hc | hc | hc
    · have hz := (hi.blocked hb).1
      omega
    · rw [hb] at hc
      cases hc
    · exact hc

/-- The executor waits, another party adds a task, and it has not given the semaphore yet. -/
theorem never_sleeps_on_queued_work_blocked :
    ∃ s : St Unit Nat, (executor Unit Nat).Reachable s ∧ s.runQueue = [7] ∧ s.pc = .blocked ∧
      ∃ p, s.enq p = .pender := by
  obtain ⟨s, hr, hs⟩ := (executor Unit Nat).reachable_of_exec
    [.next, .next, .enqueue (.other ()) 7]
    (fun s => decide (s.runQueue = [7]) && decide (s.pc = .blocked)) rfl
  simp only [Bool.and_eq_true, decide_eq_true_eq] at hs
  obtain ⟨hq, hpc⟩ := hs
  have hne : s.runQueue ≠ [] := by
    rw [hq]
    exact List.cons_ne_nil 7 []
  exact ⟨s, hr, hq, hpc, (never_sleeps_on_queued_work hr hne).2 hpc⟩

end ZephyrRust.Executor
