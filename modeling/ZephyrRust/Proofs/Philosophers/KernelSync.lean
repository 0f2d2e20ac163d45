import ZephyrRust.Philosophers.KernelSync
import ZephyrRust.Proofs.Philosophers

/-!
# `ZephyrRust.Proofs.Philosophers.KernelSync`: a kernel object is a lock

The implementations with one kernel object for each fork are the locks of the purpose. A
`sys::Mutex` has the holder of the fork as its owner, at one level. A `sys::Semaphore` has
the count 1 when the fork is free, and 0 when it has a holder. A `give` to a waiting
philosopher is two steps of the locks: the release, and the `take` of the one who waits.
-/

set_option autoImplicit false

namespace ZephyrRust.Philosophers

/-- The call that has not taken effect. -/
def KernelPc.op : KernelPc → Option ForkOp
  | .take index | .waiting index => some (.take index)
  | .release index => some (.release index)
  | .atRest | .panicked => none

@[simp] theorem KernelPc.op_enter (op : ForkOp) : (KernelPc.enter op).op = some op := by
  cases op <;> rfl

theorem KernelPc.enter_ne (op : ForkOp) : KernelPc.enter op ≠ .panicked := by
  cases op <;> simp [KernelPc.enter]

theorem KernelPc.enter_ne_waiting (op : ForkOp) (i : Fork) :
    KernelPc.enter op ≠ .waiting i := by
  cases op <;> simp [KernelPc.enter]

/-- How many kernel calls and waits are left. -/
def KernelPc.weight : KernelPc → Nat
  | .take _ => 2
  | .waiting _ | .release _ => 1
  | .atRest | .panicked => 0

theorem KernelPc.weight_enter (op : ForkOp) : (KernelPc.enter op).weight ≤ 2 := by
  cases op <;> simp [KernelPc.enter, KernelPc.weight]

/-! ## `SysMutexSync` -/

namespace SysMutexSync

/-- The mutexes of the forks, as the locks have them. -/
structure Glue (x : SysMutexSync) (l : Locks) : Prop where
  mutex : ∀ i, x.locks i = (l.holder i).elim .new fun n => { owner := some n, count := 1 }
  op : ∀ n, l.call n = (x.pc n).op
  pc : ∀ n, x.pc n ≠ .panicked
  waiting : ∀ n i, x.pc n ≠ .waiting i

/-- A kernel call that returns takes effect. -/
theorem Glue.ret {x : SysMutexSync} {l : Locks} (h : Glue x l) {n : Phil} {i : Fork}
    {k : Sys.Mutex Phil} {holder : Option Phil}
    (hk : k = holder.elim .new fun n => { owner := some n, count := 1 }) :
    Glue (x.ret n i k) ⟨Function.update l.holder i holder, Function.update l.call n none⟩ where
  mutex j := by
    by_cases hj : j = i
    · subst hj
      simpa [SysMutexSync.ret] using hk
    · simpa [SysMutexSync.ret, hj] using h.mutex j
  op m := by
    by_cases hm : m = n
    · subst hm
      simp [SysMutexSync.ret, KernelPc.op]
    · simpa [SysMutexSync.ret, hm] using h.op m
  pc m := by
    by_cases hm : m = n
    · subst hm
      simp [SysMutexSync.ret]
    · simpa [SysMutexSync.ret, hm] using h.pc m
  waiting m j := by
    by_cases hm : m = n
    · subst hm
      simp [SysMutexSync.ret]
    · simpa [SysMutexSync.ret, hm] using h.waiting m j

theorem implements : Implements sysMutexSync Glue where
  init := ⟨fun _ => rfl, fun _ => rfl, fun _ => by simp [sysMutexSync],
    fun _ _ => by simp [sysMutexSync]⟩
  rest x l n h hrest := by
    have hpc : x.pc n = .atRest := of_decide_eq_true hrest
    rw [h.op, hpc]
    rfl
  call x l n op _ h _ := by
    refine ⟨h.mutex, fun m => ?_, fun m => ?_, fun m i => ?_⟩ <;> by_cases hm : m = n
    · subst hm
      simp [sysMutexSync]
    · simpa [sysMutexSync, hm] using h.op m
    · subst hm
      simpa [sysMutexSync] using KernelPc.enter_ne op
    · simpa [sysMutexSync, hm] using h.pc m
    · subst hm
      simpa [sysMutexSync] using KernelPc.enter_ne_waiting op i
    · simpa [sysMutexSync, hm] using h.waiting m i
  step x l n x' husage h hstep := by
    have hop := h.op n
    have hstep' : x.step n = some x' := hstep
    unfold SysMutexSync.step at hstep'
    split at hstep'
    · rename_i i hpc
      rw [hpc] at hop
      obtain ⟨k, hk, rfl⟩ := Option.map_eq_some_iff.mp hstep'
      -- The philosopher does not own the mutex, so it is free.
      have hfree : l.holder i = none := by
        cases hh : l.holder i with
        | none => rfl
        | some m =>
          rw [h.mutex, hh] at hk
          obtain ⟨ho, -⟩ | ⟨ho, -⟩ := Sys.Mutex.lock_eq_some hk
          · cases ho
          · cases ho
            exact absurd (husage.takes n i i hop hh) (lt_irrefl i)
      refine ⟨_, .single (Locks.serve_take hop hfree), h.ret ?_⟩
      rw [h.mutex, hfree] at hk
      exact (Option.some.inj hk).symm
    · rename_i i hpc
      rw [hpc] at hop
      have hown := husage.releases n i hop
      have hunlock : (x.locks i).unlock n = some .new := by
        rw [h.mutex, hown]
        simp [Sys.Mutex.unlock]
      rw [hunlock] at hstep'
      cases hstep'
      exact ⟨_, .single (Locks.serve_release hop), h.ret rfl⟩
    · cases hstep'

/-- A kernel call that returns leaves less to do. -/
theorem weight_ret {x : SysMutexSync} {n : Phil} {i : Fork} {k : Sys.Mutex Phil}
    (h : 0 < (x.pc n).weight) : ∑ q, ((x.ret n i k).pc q).weight < ∑ q, (x.pc q).weight :=
  sum_update_lt h

/-- A philosopher in a call that the locks would serve has a kernel call to make. -/
theorem live : Live sysMutexSync Glue (fun _ => True) (fun x => ∑ n, (x.pc n).weight) 2 where
  call x l n op _ _ := sum_update_le (KernelPc.weight_enter op)
  progress x l n husage h hrest hready := by
    have hop := h.op n
    cases hpc : x.pc n with
    | atRest => simp [sysMutexSync, hpc] at hrest
    | panicked => exact absurd hpc (h.pc n)
    | waiting i => exact absurd hpc (h.waiting n i)
    | take i =>
      rw [hpc] at hop
      have hlock : (x.locks i).lock n = some { owner := some n, count := 1 } := by
        rw [h.mutex, hready i hop]
        rfl
      refine ⟨n, x.ret n i { owner := some n, count := 1 }, trivial, ?_,
        weight_ret (by simp [hpc, KernelPc.weight])⟩
      show x.step n = _
      simp only [SysMutexSync.step, hpc, hlock, Option.map_some]
    | release i =>
      rw [hpc] at hop
      have hunlock : (x.locks i).unlock n = some .new := by
        rw [h.mutex, husage.releases n i hop]
        simp [Sys.Mutex.unlock]
      refine ⟨n, x.ret n i .new, trivial, ?_, weight_ret (by simp [hpc, KernelPc.weight])⟩
      show x.step n = _
      simp only [SysMutexSync.step, hpc, hunlock]

end SysMutexSync

/-- The mutexes of `SysMutexSync` serve the philosophers. No `unlock` fails. -/
theorem sysMutexSync_serves :
    Serves sysMutexSync (fun _ => True) fun x => ∃ n, x.pc n = .panicked :=
  SysMutexSync.implements.serves SysMutexSync.live fun x _ h hn => by
    obtain ⟨n, hn⟩ := hn
    exact h.pc n hn

/-! ## `SemSync` -/

namespace SemSync

/-- The semaphores of the forks, as the locks have them. -/
structure Glue (x : SemSync) (l : Locks) : Prop where
  limit : ∀ i, (x.forks i).limit = 1
  count : ∀ i, 0 < (x.forks i).count ↔ l.holder i = none
  free : ∀ i, l.holder i = none → (x.forks i).waiters = []
  nodup : ∀ i, (x.forks i).waiters.Nodup
  waiting : ∀ n i, n ∈ (x.forks i).waiters ↔ x.pc n = .waiting i
  op : ∀ n, l.call n = (x.pc n).op
  pc : ∀ n, x.pc n ≠ .panicked

/-- A change of one semaphore and of the places of some philosophers. What has to be shown is
about this semaphore and these philosophers. -/
theorem Glue.change {x : SemSync} {l : Locks} (h : Glue x l) {i : Fork} {k : Sys.Semaphore Phil}
    {holder : Option Phil} {pc : Phil → KernelPc} {call : Phil → Option ForkOp}
    (hlimit : k.limit = 1) (hcount : 0 < k.count ↔ holder = none)
    (hfree : holder = none → k.waiters = []) (hnodup : k.waiters.Nodup)
    (hwaiting : ∀ n, n ∈ k.waiters ↔ pc n = .waiting i)
    (hother : ∀ n j, j ≠ i → (pc n = .waiting j ↔ x.pc n = .waiting j))
    (hop : ∀ n, call n = (pc n).op) (hpc : ∀ n, pc n ≠ .panicked) :
    Glue ⟨Function.update x.forks i k, pc⟩ ⟨Function.update l.holder i holder, call⟩ where
  limit j := by
    by_cases hj : j = i
    · subst hj
      simpa using hlimit
    · simpa [hj] using h.limit j
  count j := by
    by_cases hj : j = i
    · subst hj
      simpa using hcount
    · simpa [hj] using h.count j
  free j := by
    by_cases hj : j = i
    · subst hj
      simpa using hfree
    · simpa [hj] using h.free j
  nodup j := by
    by_cases hj : j = i
    · subst hj
      simpa using hnodup
    · simpa [hj] using h.nodup j
  waiting n j := by
    by_cases hj : j = i
    · subst hj
      simpa using hwaiting n
    · simpa [hj, hother n j hj] using h.waiting n j
  op := hop
  pc := hpc

variable {x x' : SemSync} {l : Locks} {n : Phil} {i : Fork}

/-- Philosopher `n` goes from a place that is not in a wait queue to `p`. -/
theorem waiting_update {p : KernelPc} {m : Phil} {j : Fork} (hn : x.pc n ≠ .waiting j)
    (hp : p ≠ .waiting j) :
    Function.update x.pc n p m = .waiting j ↔ x.pc m = .waiting j := by
  by_cases hm : m = n
  · subst hm
    simp [hn, hp]
  · rw [Function.update_of_ne hm]

theorem Glue.op_atRest (h : Glue x l) (n m : Phil) :
    Function.update l.call n none m = (Function.update x.pc n .atRest m).op := by
  by_cases hm : m = n
  · subst hm
    simp [KernelPc.op]
  · simpa [hm] using h.op m

theorem Glue.pc_update (h : Glue x l) (n : Phil) {p : KernelPc} (hp : p ≠ .panicked) (m : Phil) :
    Function.update x.pc n p m ≠ .panicked := by
  by_cases hm : m = n
  · subst hm
    simpa using hp
  · simpa [hm] using h.pc m

/-- A `take` of a free fork. -/
theorem Glue.take (h : Glue x l) (hpc : x.pc n = .take i) (hpos : 0 < (x.forks i).count) :
    Glue (x.put n i ((x.forks i).take n).2 .atRest)
      ⟨Function.update l.holder i (some n), Function.update l.call n none⟩ := by
  obtain ⟨-, hcount, hlimit, hwaiters⟩ := Sys.Semaphore.take_of_pos n hpos
  have hle := (x.forks i).count_le
  rw [h.limit] at hle hlimit
  have hnil := h.free i ((h.count i).mp hpos)
  have hempty : ∀ m, x.pc m ≠ .waiting i := by
    intro m hm
    have hmem := (h.waiting m i).mpr hm
    rw [hnil] at hmem
    cases hmem
  refine h.change hlimit ?_ (fun hn => by cases hn) ?_ (fun m => ?_) (fun m j _ => ?_)
    (fun m => ?_) (fun m => ?_)
  · rw [hcount]
    simp
    omega
  · rw [hwaiters, hnil]
    exact List.nodup_nil
  · rw [hwaiters, h.waiting, waiting_update (by simp [hpc]) (by simp)]
  · exact waiting_update (by simp [hpc]) (by simp)
  · exact h.op_atRest n m
  · exact h.pc_update n (by simp) m

/-- A `take` of a fork with a holder waits. -/
theorem Glue.wait (h : Glue x l) (hpc : x.pc n = .take i) (hzero : (x.forks i).count = 0) :
    Glue (x.put n i ((x.forks i).take n).2 (.waiting i)) l := by
  rw [Sys.Semaphore.take_of_zero n hzero]
  have hnot : n ∉ (x.forks i).waiters := by
    rw [h.waiting, hpc]
    simp
  have hheld : l.holder i ≠ none := by
    rw [Ne, ← h.count, hzero]
    exact lt_irrefl 0
  have hl : l = ⟨Function.update l.holder i (l.holder i), l.call⟩ := by
    rw [Function.update_eq_self]
  rw [hl]
  refine h.change (h.limit i) (h.count i) (fun hn => absurd hn hheld) ?_ (fun m => ?_)
    (fun m j hj => ?_) (fun m => ?_) (fun m => ?_)
  · simpa [List.nodup_append, h.nodup i] using fun m hm => ne_of_mem_of_not_mem hm hnot
  · by_cases hm : m = n
    · subst hm
      simp
    · simpa [hm] using h.waiting m i
  · exact waiting_update (by simp [hpc]) (by simpa using Ne.symm hj)
  · by_cases hm : m = n
    · subst hm
      simpa [hpc, KernelPc.op] using h.op m
    · simpa [hm] using h.op m
  · exact h.pc_update n (by simp) m

/-- A `give` without a waiting philosopher frees the fork. -/
theorem Glue.free_fork (h : Glue x l) (hpc : x.pc n = .release i)
    (hnil : (x.forks i).waiters = []) :
    Glue (x.put n i ((x.forks i).give).2 .atRest)
      ⟨Function.update l.holder i none, Function.update l.call n none⟩ := by
  obtain ⟨-, hpos, hlimit, hwaiters⟩ :=
    Sys.Semaphore.give_of_nil hnil (by rw [h.limit]; exact Nat.one_pos)
  refine h.change (hlimit.trans (h.limit i)) ?_ (fun _ => hwaiters) ?_ (fun m => ?_)
    (fun m j _ => ?_) (fun m => ?_) (fun m => ?_)
  · simpa using hpos
  · rw [hwaiters]
    exact List.nodup_nil
  · rw [hwaiters, ← hnil, h.waiting, waiting_update (by simp [hpc]) (by simp)]
  · exact waiting_update (by simp [hpc]) (by simp)
  · exact h.op_atRest n m
  · exact h.pc_update n (by simp) m

/-- A `give` hands the fork to the first waiting philosopher. The locks serve the release and then
the `take` of the philosopher who waits. -/
theorem Glue.hand (h : Glue x l) (husage : Usage l) (hpc : x.pc n = .release i) {m : Phil}
    {rest : List Phil} (hcons : (x.forks i).waiters = m :: rest) :
    ∃ l', locks.system.Later l l' ∧
      Glue ⟨Function.update x.forks i ((x.forks i).give).2,
        Function.update (Function.update x.pc n .atRest) m .atRest⟩ l' := by
  have hm : x.pc m = .waiting i := by
    rw [← h.waiting, hcons]
    exact List.mem_cons_self
  have hmn : m ≠ n := by
    intro heq
    rw [heq, hpc] at hm
    cases hm
  have hrel : l.call n = some (.release i) := by rw [h.op, hpc]; rfl
  have htake : Function.update l.call n none m = some (.take i) := by
    rw [Function.update_of_ne hmn, h.op, hm]
    rfl
  have hserve₁ := Locks.serve_release hrel
  have hserve₂ := Locks.serve_take (l := ⟨Function.update l.holder i none,
    Function.update l.call n none⟩) htake (Function.update_self i none l.holder)
  refine ⟨_, .head ⟨n, hserve₁⟩ (.single ⟨m, hserve₂⟩), ?_⟩
  rw [Function.update_idem, Sys.Semaphore.give_of_cons hcons]
  have hheld : ¬0 < (x.forks i).count := by
    rw [h.count, husage.releases n i hrel]
    simp
  have hnodup := h.nodup i
  rw [hcons, List.nodup_cons] at hnodup
  refine h.change (h.limit i) (by simpa using hheld) (fun hn => by cases hn) hnodup.2
    (fun q => ?_) (fun q j hj => ?_) (fun q => ?_) (fun q => ?_)
  · by_cases hq : q = m
    · subst hq
      simpa using hnodup.1
    · have hq' := h.waiting q i
      rw [hcons, List.mem_cons, or_iff_right hq] at hq'
      rw [hq', Function.update_of_ne hq, waiting_update (by simp [hpc]) (by simp)]
  · by_cases hq : q = m
    · subst hq
      simpa [hm] using Ne.symm hj
    · rw [Function.update_of_ne hq, waiting_update (by simp [hpc]) (by simp)]
  · by_cases hq : q = m
    · subst hq
      simp [KernelPc.op]
    · simpa [hq] using h.op_atRest n q
  · by_cases hq : q = m
    · subst hq
      simp
    · simpa [hq] using h.pc_update n (by simp) q

theorem implements : Implements semSync Glue where
  init := by
    refine ⟨fun _ => rfl, fun _ => ?_, fun _ _ => rfl, fun _ => List.nodup_nil, fun _ _ => ?_,
      fun _ => rfl, fun _ => ?_⟩
    · simp [semSync, SemSync.sem, Sys.Semaphore.new, locks]
    · simp [semSync, SemSync.sem, Sys.Semaphore.new]
    · simp [semSync]
  rest x l n h hrest := by
    have hpc : x.pc n = .atRest := of_decide_eq_true hrest
    rw [h.op, hpc]
    rfl
  call x l n op _ h hrest := by
    have hpc : x.pc n = .atRest := of_decide_eq_true hrest
    refine ⟨h.limit, h.count, h.free, h.nodup, fun m i => ?_, fun m => ?_, fun m => ?_⟩
    · have hupdate := waiting_update (x := x) (n := n) (m := m) (j := i) (by simp [hpc])
        (KernelPc.enter_ne_waiting op i)
      exact (h.waiting m i).trans hupdate.symm
    · by_cases hm : m = n
      · subst hm
        simp [semSync]
      · simpa [semSync, hm] using h.op m
    · exact h.pc_update n (KernelPc.enter_ne op) m
  step x l n x' husage h hstep := by
    have hstep' : x.step n = some x' := hstep
    unfold SemSync.step at hstep'
    split at hstep'
    · rename_i i hpc
      cases hstep'
      have hop : l.call n = some (.take i) := by rw [h.op, hpc]; rfl
      rcases Nat.eq_zero_or_pos (x.forks i).count with hzero | hpos
      · rw [Sys.Semaphore.take_of_zero n hzero]
        have hwait := h.wait hpc hzero
        rw [Sys.Semaphore.take_of_zero n hzero] at hwait
        exact ⟨l, .refl, hwait⟩
      · rw [(Sys.Semaphore.take_of_pos n hpos).1]
        exact ⟨_, .single (Locks.serve_take hop ((h.count i).mp hpos)), h.take hpc hpos⟩
    · rename_i i hpc
      have hop : l.call n = some (.release i) := by rw [h.op, hpc]; rfl
      cases hw : (x.forks i).waiters with
      | nil =>
        have hnone := (Sys.Semaphore.give_of_nil hw (by rw [h.limit]; exact Nat.one_pos)).1
        simp only [hnone] at hstep'
        cases hstep'
        exact ⟨_, .single (Locks.serve_release hop), h.free_fork hpc hw⟩
      | cons m rest =>
        have hsome : (x.forks i).give.1 = some m := by rw [Sys.Semaphore.give_of_cons hw]
        simp only [hsome] at hstep'
        cases hstep'
        exact h.hand husage hpc hw
    · cases hstep'

/-- A philosopher in a call that the locks would serve is not in a wait queue. -/
theorem live : Live semSync Glue (fun _ => True) (fun x => ∑ n, (x.pc n).weight) 2 where
  call x l n op _ _ := sum_update_le (KernelPc.weight_enter op)
  progress x l n husage h hrest hready := by
    have hop := h.op n
    cases hpc : x.pc n with
    | atRest => simp [semSync, hpc] at hrest
    | panicked => exact absurd hpc (h.pc n)
    | take i =>
      refine ⟨n, _, trivial, by simp only [semSync, SemSync.step, hpc]; rfl, sum_update_lt ?_⟩
      rw [hpc]
      split <;> simp [KernelPc.weight]
    | waiting i =>
      rw [hpc] at hop
      have hmem := (h.waiting n i).mpr hpc
      rw [h.free i (hready i hop)] at hmem
      cases hmem
    | release i =>
      have hlt : ∑ q, (Function.update x.pc n .atRest q).weight < ∑ q, (x.pc q).weight :=
        sum_update_lt (by simp [hpc, KernelPc.weight])
      cases hgive : (x.forks i).give.1 with
      | none => exact ⟨n, _, trivial, by simp only [semSync, SemSync.step, hpc, hgive]; rfl, hlt⟩
      | some m =>
        refine ⟨n, _, trivial, by simp only [semSync, SemSync.step, hpc, hgive]; rfl, ?_⟩
        exact lt_of_le_of_lt (sum_update_le (w := 0) (by simp [KernelPc.weight])) hlt

end SemSync

/-- The semaphores of `SemSync` serve the philosophers. -/
theorem semSync_serves : Serves semSync (fun _ => True) fun x => ∃ n, x.pc n = .panicked :=
  SemSync.implements.serves SemSync.live fun x _ h hn => by
    obtain ⟨n, hn⟩ := hn
    exact h.pc n hn

end ZephyrRust.Philosophers
