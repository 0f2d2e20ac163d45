import ZephyrRust.Lib.Count
import ZephyrRust.Work

/-!
# `ZephyrRust.Proofs.Work`: the accounts of a work item

`Balance s lost` is the account of the references in the state `s`. Every reference that was
leaked is reclaimed, or it waits for the kernel call of its submit, or it waits for a handler, or
it is one of the `lost` ones. The strong count is the sum of the references in the hands of the
program, the leaked ones and those in the hands of handlers. One step keeps the account
(`Balance.step`), and only a submit that the kernel does not queue adds to `lost`.

From the account follow both directions. A leaked reference is there for every handler
invocation to come, so the item is not freed under the kernel. And a reference is lost for
good exactly by a submit that is not queued.
-/

set_option autoImplicit false

namespace ZephyrRust.Work

open ZephyrRust.Lib (System Counts)

variable {Tid Q : Type}

/-- A thread in a submit, between `Arc::into_raw` and the kernel call. -/
def Pc.submitting : Pc Q → Bool
  | .kWorkSubmit _ => true
  | _ => false

/-- A handler that is called and has not come to `Arc::from_raw`. -/
def Handler.entered : Handler → Bool
  | .fromRaw => true
  | _ => false

/-- A handler that has its `Arc`. -/
def Handler.acting : Handler → Bool
  | .act => true
  | _ => false

/-- The account of the references. `k` submits are before the kernel call, `e` handlers are before
`Arc::from_raw` and `a` handlers have their `Arc`. -/
structure Account (s : St Tid Q) (lost k e a : Nat) : Prop where
  submitting : Counts s.pc Pc.submitting k
  entered : Counts s.handler Handler.entered e
  acting : Counts s.handler Handler.acting a
  leaks : s.leaks = s.reclaims + s.queued.isSome.toNat + e + k + lost
  strong : s.strong + s.reclaims = s.arcs + s.leaks + a

/-- The account with `lost` references. -/
def Balance (s : St Tid Q) (lost : Nat) : Prop := ∃ k e a, Account s lost k e a

/-- The kernel queues what a submit gives to it: the item is not queued already, and the kernel
does not reject it. -/
def Taken (s : St Tid Q) : Act Tid Q → Prop
  | .submitAnswer _ rc _ => s.queued = none ∧ 0 ≤ rc
  | _ => True

variable {s s' : St Tid Q} {lost k e a : Nat}

/-- A thread that is in no call is not in a submit. -/
theorem submitting_of_atRest {t : Tid} (h : s.atRest t) : (s.pc t).submitting = false := by
  unfold St.atRest at h
  split at h
  · rename_i hpc
    rw [hpc]
    rfl
  · rename_i hpc
    rw [hpc]
    rfl
  · cases h

/-- The strong count covers the references of the program. -/
theorem Account.arcs_le (h : Account s lost k e a) : s.arcs ≤ s.strong := by
  have hl := h.leaks
  have hs := h.strong
  omega

/-- Only the number of references in the hands of the program changes. -/
theorem Account.setArcs (h : Account s lost k e a) {m n : Nat}
    (hmn : m + s.arcs = n + s.strong) :
    Account { s with strong := m, arcs := n } lost k e a := by
  refine ⟨h.submitting, h.entered, h.acting, h.leaks, ?_⟩
  have hs := h.strong
  show m + s.reclaims = n + s.leaks + a
  omega

/-- A submit that is taken leaves the item queued, where it was not before. Any other submit
leaves the item as it was. -/
theorem kWorkSubmitToQueue_cases [DecidableEq Q] {q running : Q} {rc : Int32}
    {queued : Option Q} (h : s.kWorkSubmitToQueue q rc running = some queued) :
    (s.queued = none ∧ 0 ≤ rc ∧ queued.isSome) ∨
    (¬(s.queued = none ∧ 0 ≤ rc) ∧ queued = s.queued) := by
  unfold St.kWorkSubmitToQueue at h
  split at h
  · rename_i hrc
    cases h
    exact Or.inr ⟨fun hn => Int32.not_le.mpr hrc hn.2, rfl⟩
  · rename_i hrc
    have hrc' : 0 ≤ rc := Int32.not_lt.mp hrc
    split at h
    · split at h
      · cases h
        exact Or.inr ⟨fun hn => ‹s.queued ≠ none› hn.1, rfl⟩
      · cases h
    · split at h
      · split at h
        · cases h
          exact Or.inl ⟨‹_›, hrc', rfl⟩
        · cases h
      · split at h
        · split at h
          · rename_i hq
            cases h
            exact Or.inl ⟨hq.1, hrc', rfl⟩
          · cases h
        · cases h

variable [DecidableEq Tid]

/-- `Arc::into_raw`: a reference of the program is leaked, and a submit waits for the
kernel. -/
theorem Account.submitToQueue (h : Account s lost k e a) {t : Tid} {q : Q}
    (hs : s.submitToQueue t q = some s') : Account s' lost (k + 1) e a := by
  simp only [St.submitToQueue] at hs
  split at hs
  · rename_i hg
    cases hs
    have hleaks := h.leaks
    have hstrong := h.strong
    refine ⟨h.submitting.update ?_, h.entered, h.acting, ?_, ?_⟩
    · rw [submitting_of_atRest hg.1]
      rfl
    · show s.leaks + 1 = s.reclaims + s.queued.isSome.toNat + e + (k + 1) + lost
      omega
    · show s.strong + s.reclaims = s.arcs - 1 + (s.leaks + 1) + a
      omega
  · cases hs

variable [DecidableEq Q]

/-- The answer of the kernel. A reference whose submit is taken waits for a handler. Any other
one is lost. -/
theorem Account.submitAnswer (h : Account s lost k e a) {t : Tid} {rc : Int32} {running : Q}
    (hs : s.submitAnswer t rc running = some s') :
    ∃ k', Account s' (if s.queued = none ∧ 0 ≤ rc then lost else lost + 1) k' e a := by
  unfold St.submitAnswer at hs
  split at hs
  · rename_i q hpc
    obtain ⟨queued, hq, rfl⟩ := Option.map_eq_some_iff.mp hs
    -- The call is counted, so there is one submit less before the kernel call.
    obtain ⟨k', rfl⟩ : ∃ k', k = k' + 1 :=
      Nat.exists_eq_add_one.mpr (h.submitting.pos (i := t) (by rw [hpc]; rfl))
    have hsub : ∀ p : Pc Q, p.submitting = false →
        Counts (Function.update s.pc t p) Pc.submitting k' := by
      intro p hp
      refine h.submitting.update ?_
      rw [hpc, hp]
      rfl
    have hleaks := h.leaks
    -- A submit that is taken moves its reference from `k` to the queue.
    have hbal : s.leaks = s.reclaims + queued.isSome.toNat + e + k'
        + (if s.queued = none ∧ 0 ≤ rc then lost else lost + 1) := by
      rcases kWorkSubmitToQueue_cases hq with ⟨hn, hrc, hsome⟩ | ⟨hnot, rfl⟩
      · rw [if_pos ⟨hn, hrc⟩, hsome]
        rw [hn] at hleaks
        simp only [Option.isSome_none, Bool.toNat_false, Bool.toNat_true] at hleaks ⊢
        omega
      · rw [if_neg hnot]
        omega
    refine ⟨k', ?_⟩
    split
    · exact ⟨hsub _ rfl, h.entered, h.acting, hbal, h.strong⟩
    · exact ⟨hsub _ rfl, h.entered, h.acting, hbal, h.strong⟩
  · cases hs

omit [DecidableEq Tid] in
/-- The kernel calls the handler: an item less in the queue, and a handler more before
`Arc::from_raw`. -/
theorem Account.run (h : Account s lost k e a) {q : Q} (hs : s.run q = some s') :
    Account s' lost k (e + 1) a := by
  simp only [St.run] at hs
  split at hs
  · rename_i hg
    obtain ⟨hq, hidle⟩ := hg
    cases hs
    have hleaks := h.leaks
    rw [hq] at hleaks
    refine ⟨h.submitting, h.entered.update ?_, h.acting.update_same ?_, ?_, h.strong⟩
    · rw [hidle]
      rfl
    · rw [hidle]
      rfl
    · show s.leaks = s.reclaims + 0 + (e + 1) + k + lost
      simp only [Option.isSome_some, Bool.toNat_true] at hleaks
      omega
  · cases hs

omit [DecidableEq Tid] in
/-- `Arc::from_raw` turns a leaked reference into the one of the handler, and the end of the
handler drops it. -/
theorem Account.handlerNext (h : Account s lost k e a) {q : Q}
    (hs : s.handlerNext q = some s') : ∃ e' a', Account s' lost k e' a' := by
  have hleaks := h.leaks
  have hstrong := h.strong
  unfold St.handlerNext at hs
  split at hs
  · cases hs
  · rename_i hpc
    cases hs
    obtain ⟨e', rfl⟩ : ∃ e', e = e' + 1 :=
      Nat.exists_eq_add_one.mpr (h.entered.pos (i := q) (by rw [hpc]; rfl))
    -- The reference moves from the leaked ones to the handler.
    refine ⟨e', a + 1, h.submitting, h.entered.update ?_, h.acting.update ?_, ?_, ?_⟩
    · rw [hpc]
      rfl
    · rw [hpc]
      rfl
    · show s.leaks = s.reclaims + 1 + s.queued.isSome.toNat + e' + k + lost
      omega
    · show s.strong + (s.reclaims + 1) = s.arcs + s.leaks + (a + 1)
      omega
  · rename_i hpc
    cases hs
    obtain ⟨a', rfl⟩ : ∃ a', a = a' + 1 :=
      Nat.exists_eq_add_one.mpr (h.acting.pos (i := q) (by rw [hpc]; rfl))
    refine ⟨e, a', h.submitting, h.entered.update_same ?_, h.acting.update ?_, hleaks, ?_⟩
    · rw [hpc]
      rfl
    · rw [hpc]
      rfl
    · show s.strong - 1 + s.reclaims = s.arcs + s.leaks + a'
      omega

instance (s : St Tid Q) (a : Act Tid Q) : Decidable (Taken s a) :=
  match a with
  | .submitAnswer _ rc _ => inferInstanceAs (Decidable (s.queued = none ∧ 0 ≤ rc))
  | .clone | .upgrade | .drop | .submit _ | .submitToQueue _ _ | .run _ | .handlerNext _ =>
    inferInstanceAs (Decidable True)

/-- A step keeps the account, and only a submit that is not taken loses a reference. -/
theorem Balance.step {sysWorkQ : Q} {act : Act Tid Q} (h : Balance s lost)
    (hs : (work Tid sysWorkQ).step s act = some s') :
    Balance s' (if Taken s act then lost else lost + 1) := by
  obtain ⟨k, e, a, h⟩ := h
  have hle := h.arcs_le
  cases act with
  | clone =>
    simp only [work, St.clone] at hs
    split at hs
    · cases hs
      exact ⟨k, e, a, h.setArcs (by omega)⟩
    · cases hs
  | upgrade =>
    simp only [work, St.upgrade] at hs
    split at hs
    · cases hs
      exact ⟨k, e, a, h.setArcs (by omega)⟩
    · cases hs
  | drop =>
    simp only [work, St.drop] at hs
    split at hs
    · cases hs
      exact ⟨k, e, a, h.setArcs (by omega)⟩
    · cases hs
  | submit t => exact ⟨_, _, _, h.submitToQueue hs⟩
  | submitToQueue t q => exact ⟨_, _, _, h.submitToQueue hs⟩
  | submitAnswer t rc running =>
    obtain ⟨k', h'⟩ := h.submitAnswer hs
    exact ⟨k', e, a, h'⟩
  | run q => exact ⟨_, _, _, h.run hs⟩
  | handlerNext q =>
    obtain ⟨e', a', h'⟩ := h.handlerNext hs
    exact ⟨k, e', a', h'⟩

/-- A new work item has no leaked references. -/
theorem balance_init (sysWorkQ : Q) : Balance (work Tid sysWorkQ).init 0 :=
  ⟨0, 0, 0, .zero fun _ => rfl, .zero fun _ => rfl, .zero fun _ => rfl, rfl, rfl⟩

/-- The account holds in every reachable state. -/
theorem Balance.of_reachable {sysWorkQ : Q} (h : (work Tid sysWorkQ).Reachable s) :
    ∃ lost, Balance s lost := by
  refine h.invariant (I := fun s => ∃ lost, Balance s lost) ⟨0, balance_init sysWorkQ⟩ ?_
  rintro s a s' ⟨lost, hb⟩ hs
  exact ⟨_, hb.step hs⟩

/-! ## The kernel and the strong count -/

/-- The number of handler invocations still to come: the item is queued, or the kernel has
called the handler and `Arc::from_raw` is next. -/
def Pending (s : St Tid Q) (n : Nat) : Prop :=
  ∃ e, Counts s.handler Handler.entered e ∧ n = s.queued.isSome.toNat + e

/-- The references that are leaked and not reclaimed are no more than the handler invocations
to come. A submit before its kernel call counts as one, because it has leaked its reference
for the handler that this call will queue. -/
def NoLeak (s : St Tid Q) : Prop :=
  ∃ k n, Counts s.pc Pc.submitting k ∧ Pending s n ∧ s.leaks - s.reclaims ≤ n + k

/-- The item is neither queued nor running, and no submit is in progress. -/
def Quiet (s : St Tid Q) : Prop :=
  s.queued = none ∧ (∀ q, s.handler q = .idle) ∧ ∀ t, (s.pc t).submitting = false

omit [DecidableEq Tid] [DecidableEq Q] in
/-- In the account, nothing is leaked exactly when nothing is lost. -/
theorem Balance.noLeak_iff (h : Balance s lost) : NoLeak s ↔ lost = 0 := by
  obtain ⟨k, e, a, h⟩ := h
  have hleaks := h.leaks
  constructor
  · rintro ⟨k', n, hk', ⟨e', he', rfl⟩, hle⟩
    rw [hk'.unique h.submitting, he'.unique h.entered] at hle
    omega
  · rintro rfl
    exact ⟨k, _, h.submitting, ⟨e, h.entered, rfl⟩, by omega⟩

omit [DecidableEq Tid] [DecidableEq Q] in
/-- In a quiet state, the strong count exceeds the references of the program by those that are
lost. -/
theorem Balance.strong_of_quiet (h : Balance s lost) (hq : Quiet s) :
    s.strong = s.arcs + lost := by
  obtain ⟨k, e, a, hsub, hent, hact, hleaks, hstrong⟩ := h
  obtain ⟨hqueued, hidle, hsubmit⟩ := hq
  -- Nobody is in a submit or in a handler.
  have hk : k = 0 := hsub.unique (.zero hsubmit)
  have he : e = 0 := hent.unique (.zero fun q => by rw [hidle]; rfl)
  have ha : a = 0 := hact.unique (.zero fun q => by rw [hidle]; rfl)
  rw [hqueued] at hleaks
  simp only [Option.isSome_none, Bool.toNat_false] at hleaks
  omega

/-- Whether references leak is decided by the submits.

* In every state of every run whose submits are all taken, no reference leaks, and the strong count
  of a quiet item is the number of references of the program.
* After a submit that is not taken, a reference is leaked in every state of the rest of the run, and
  the strong count of a quiet item is greater than the number of references of the program. -/
theorem no_leak_of_taken (sysWorkQ : Q) :
    (∀ s, (work Tid sysWorkQ).ReachableBy Taken s →
      NoLeak s ∧ (Quiet s → s.strong = s.arcs)) ∧
    (∀ s a s₁ s₂, (work Tid sysWorkQ).Reachable s → ¬Taken s a →
      (work Tid sysWorkQ).step s a = some s₁ → (work Tid sysWorkQ).Later s₁ s₂ →
      ¬NoLeak s₂ ∧ (Quiet s₂ → s₂.arcs < s₂.strong)) := by
  constructor
  · intro s h
    have hb : Balance s 0 := by
      refine h.invariant (I := fun s => Balance s 0) (balance_init sysWorkQ) ?_
      intro s a s' hb ht hs
      have hb' := hb.step hs
      rwa [if_pos ht] at hb'
    exact ⟨hb.noLeak_iff.mpr rfl, fun hq => hb.strong_of_quiet hq⟩
  · intro s a s₁ s₂ hr ht hs hl
    obtain ⟨lost, hb⟩ := Balance.of_reachable hr
    have hb₁ := hb.step hs
    rw [if_neg ht] at hb₁
    -- A lost reference stays lost.
    obtain ⟨lost', hpos, hb₂⟩ : ∃ lost', 0 < lost' ∧ Balance s₂ lost' := by
      refine hl.stable (I := fun s => ∃ lost', 0 < lost' ∧ Balance s lost') (hr.next hs)
        ⟨lost + 1, by omega, hb₁⟩ ?_
      rintro s a s' - ⟨lost', hpos, hb'⟩ hs'
      refine ⟨_, ?_, hb'.step hs'⟩
      split <;> omega
    refine ⟨fun hn => Nat.ne_of_gt hpos (hb₂.noLeak_iff.mp hn), fun hq => ?_⟩
    rw [hb₂.strong_of_quiet hq]
    omega

/-- One submit that is taken, and the handler runs to its end. The item is freed. -/
theorem no_leak_of_taken_one :
    ∃ s, (work Unit ()).ReachableBy Taken s ∧ Quiet s ∧ s.leaks = 1 ∧ s.strong = 0 := by
  have hr : (work Unit ()).ReachableBy Taken _ :=
    ((((System.ReachableBy.init.step (a := .submit ()) trivial rfl).step
      (a := .submitAnswer () 1 ()) ⟨rfl, by decide⟩ rfl).step (a := .run ()) trivial rfl).step
      (a := .handlerNext ()) trivial rfl).step (a := .handlerNext ()) trivial rfl
  refine ⟨_, hr, ⟨rfl, fun _ => rfl, fun _ => rfl⟩, rfl, ?_⟩
  exact ((no_leak_of_taken ()).1 _ hr).2 ⟨rfl, fun _ => rfl, fun _ => rfl⟩

/-- The program submits the item twice before the handler runs. The second submit finds the item
queued and leaks its reference. When the handler has run, the program has no reference, the item
is quiet, and its strong count is 1. -/
theorem submit_twice_leaks :
    ∃ s, (work Unit ()).Reachable s ∧ Quiet s ∧ ¬NoLeak s ∧ s.strong = 1 ∧ s.arcs = 0 := by
  obtain ⟨s, hr, hs⟩ := (work Unit ()).reachable_of_exec
    [.clone, .submit (), .submitAnswer () 1 (), .submit (), .submitAnswer () 0 (), .run (),
      .handlerNext (), .handlerNext ()]
    (fun s => decide (s.queued = none) && decide (s.handler () = .idle) &&
      !(s.pc ()).submitting && decide (s.strong = 1) && decide (s.arcs = 0)) rfl
  simp only [Bool.and_eq_true, decide_eq_true_eq, Bool.not_eq_true'] at hs
  obtain ⟨⟨⟨⟨hqueued, hidle⟩, hsubmit⟩, hstrong⟩, harcs⟩ := hs
  have hq : Quiet s := ⟨hqueued, fun _ => hidle, fun _ => hsubmit⟩
  refine ⟨s, hr, hq, fun hn => ?_, hstrong, harcs⟩
  obtain ⟨lost, hb⟩ := Balance.of_reachable hr
  have hs' := hb.strong_of_quiet hq
  rw [hb.noLeak_iff.mp hn] at hs'
  omega

end ZephyrRust.Work
