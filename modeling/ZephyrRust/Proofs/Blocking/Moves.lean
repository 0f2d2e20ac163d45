import ZephyrRust.Blocking

/-!
# `ZephyrRust.Proofs.Blocking.Moves`: what one step of the blocking pool does

`FutMove s f s'` lists the operations that the poll or the drop of `f` performs, and
`WrkMove s k s'` the operations of worker `k`: for each one the program counter it starts
from, the outcome of the test it makes, and the state after it. `Move.of_step` says that
every step of `pool` is one of them. The invariants of the pool are case splits over these
lists.
-/

set_option autoImplicit false

namespace ZephyrRust.Blocking

open ZephyrRust.Sys (Queue)

variable {c : Config}

/-- The operations of the polls and the drop of `f`. -/
inductive FutMove (s : St c) (f : c.Fut) : St c → Prop
  | pollFirst {w : c.Waker} (hpc : (s.fut f).pc = .idle) (hready : (s.fut f).ready = none)
      (hslot : (s.fut f).slot = none) : FutMove s f (s.setPc f (.claim w .lock))
  | pollAgain {w : c.Waker} {i : Fin c.slots} (hpc : (s.fut f).pc = .idle)
      (hslot : (s.fut f).slot = some i) : FutMove s f (s.setPc f (.register w i))
  | dropUnclaimed (hpc : (s.fut f).pc = .idle) (hslot : (s.fut f).slot = none) :
      FutMove s f (s.setPc f .dropped)
  | dropClaimed {i : Fin c.slots} (hpc : (s.fut f).pc = .idle)
      (hslot : (s.fut f).slot = some i) : FutMove s f (s.setPc f (.cancel i .remove))
  | claimLock {w : c.Waker} (hpc : (s.fut f).pc = .claim w .lock)
      (hlock : s.waitersLock = none) :
      FutMove s f ({ s with waitersLock := some (.fut f) }.setPc f (.claim w (.scan 0)))
  | claimTake {w : c.Waker} {i : Fin c.slots} (hpc : (s.fut f).pc = .claim w (.scan i))
      (hstate : (s.slots i).state = .free) :
      FutMove s f ((s.setState i .claimed).setPc f (.claim w (.unlock (some i))))
  | claimSkip {w : c.Waker} {i : Fin c.slots} (hpc : (s.fut f).pc = .claim w (.scan i))
      (hstate : (s.slots i).state ≠ .free) :
      FutMove s f (s.setPc f (.claim w (.scan (i + 1))))
  | claimEnd {w : c.Waker} {i : Nat} (hpc : (s.fut f).pc = .claim w (.scan i))
      (hi : c.slots ≤ i) : FutMove s f (s.setPc f (.claim w .register))
  | claimRegister {w : c.Waker} (hpc : (s.fut f).pc = .claim w .register) :
      FutMove s f
        (({ s with waiters := (c.multiWaker.register s.waiters w).1 }.wakeTasks
          (c.multiWaker.register s.waiters w).2).setPc f (.claim w (.unlock none)))
  | claimNone {w : c.Waker} (hpc : (s.fut f).pc = .claim w (.unlock none)) :
      FutMove s f ({ s with
          waitersLock := none
          obs := Function.update s.obs f { waiting := true, waker := some w, woken := false }
        }.setPc f .idle)
  | claimSome {w : c.Waker} {i : Fin c.slots}
      (hpc : (s.fut f).pc = .claim w (.unlock (some i))) :
      FutMove s f ({ s with
          waitersLock := none
          obs := Function.update s.obs f { s.obs f with waiting := false }
        }.setPc f (.submit w i .setSlot))
  | setSlot {w : c.Waker} {i : Fin c.slots} (hpc : (s.fut f).pc = .submit w i .setSlot) :
      FutMove s f (s.setFut f { s.fut f with slot := some i, pc := .submit w i .register })
  | registerFirst {w : c.Waker} {i : Fin c.slots}
      (hpc : (s.fut f).pc = .submit w i .register) :
      FutMove s f ((s.registerWaker f i w).setPc f (.submit w i .setShared))
  | setShared {w : c.Waker} {i : Fin c.slots} (hpc : (s.fut f).pc = .submit w i .setShared) :
      FutMove s f ((s.setSlot i { s.slots i with shared := some f }).setPc f
        (.submit w i .setRunner))
  | setRunner {w : c.Waker} {i : Fin c.slots} (hpc : (s.fut f).pc = .submit w i .setRunner) :
      FutMove s f ((s.setSlot i { s.slots i with runner := some (c.ty f) }).setPc f
        (.submit w i .startOnce))
  | startedBefore {w : c.Waker} {i : Fin c.slots}
      (hpc : (s.fut f).pc = .submit w i .startOnce) (hstarted : s.started = true) :
      FutMove s f (s.setPc f (.submit w i .storeQueued))
  | startOnce {w : c.Waker} {i : Fin c.slots} (hpc : (s.fut f).pc = .submit w i .startOnce)
      (hstarted : s.started = false) :
      FutMove s f ({ s with started := true }.setPc f (.submit w i (.startWorker 0)))
  | startWorker {w : c.Waker} {i : Fin c.slots} {k : Fin c.threads}
      (hpc : (s.fut f).pc = .submit w i (.startWorker k)) (hoff : s.wrk k = .off) :
      FutMove s f ((s.setWrk k .recv).setPc f (.submit w i (.startWorker (k + 1))))
  | startRunning {w : c.Waker} {i : Fin c.slots} {k : Fin c.threads}
      (hpc : (s.fut f).pc = .submit w i (.startWorker k)) :
      FutMove s f (s.setPc f (.submit w i (.startWorker (k + 1))))
  | startEnd {w : c.Waker} {i : Fin c.slots} {k : Nat}
      (hpc : (s.fut f).pc = .submit w i (.startWorker k)) :
      FutMove s f (s.setPc f (.submit w i .storeQueued))
  | storeQueued {w : c.Waker} {i : Fin c.slots}
      (hpc : (s.fut f).pc = .submit w i .storeQueued) :
      FutMove s f ((s.setState i .queued).setPc f (.submit w i .send))
  | send {w : c.Waker} {i : Fin c.slots} (hpc : (s.fut f).pc = .submit w i .send) :
      FutMove s f ({ s with queue := Queue.send s.queue i }.setPc f .idle)
  | register {w : c.Waker} {i : Fin c.slots} (hpc : (s.fut f).pc = .register w i) :
      FutMove s f ((s.registerWaker f i w).setPc f (.load i))
  | loadDone {i : Fin c.slots} (hpc : (s.fut f).pc = .load i)
      (hstate : (s.slots i).state = .done) : FutMove s f (s.setPc f (.takeResult i))
  | loadPending {i : Fin c.slots} (hpc : (s.fut f).pc = .load i)
      (hstate : (s.slots i).state ≠ .done) : FutMove s f (s.setPc f .idle)
  | takeResult {i : Fin c.slots} {v : c.Val} (hpc : (s.fut f).pc = .takeResult i)
      (hresult : (s.fut f).result = some v) :
      FutMove s f (s.setFut f { s.fut f with result := none, pc := .clearSlot i v })
  | takePanic {i : Fin c.slots} (hpc : (s.fut f).pc = .takeResult i)
      (hresult : (s.fut f).result = none) : FutMove s f (s.setPc f .panicked)
  | clearSlot {i : Fin c.slots} {v : c.Val} (hpc : (s.fut f).pc = .clearSlot i v) :
      FutMove s f (s.setFut f { s.fut f with slot := none, pc := .ready v (.store i) })
  | readyStore {v : c.Val} {i : Fin c.slots} (hpc : (s.fut f).pc = .ready v (.store i)) :
      FutMove s f ((s.setState i .free).setPc f (.ready v .lock))
  | readyLock {v : c.Val} (hpc : (s.fut f).pc = .ready v .lock)
      (hlock : s.waitersLock = none) :
      FutMove s f ({ s with waitersLock := some (.fut f) }.setPc f (.ready v .wake))
  | readyWake {v : c.Val} (hpc : (s.fut f).pc = .ready v .wake) :
      FutMove s f (({ s with waiters := (c.multiWaker.wake s.waiters).1 }.wakeTasks
        (c.multiWaker.wake s.waiters).2).setPc f (.ready v .unlock))
  | readyUnlock {v : c.Val} (hpc : (s.fut f).pc = .ready v .unlock) :
      FutMove s f ({ s with waitersLock := none }.setFut f
        { s.fut f with ready := some v, pc := .idle })
  | cancelRemoved {i : Fin c.slots} (hpc : (s.fut f).pc = .cancel i .remove)
      (hmem : i ∈ s.queue) :
      FutMove s f ({ s with queue := s.queue.erase i }.setPc f (.discard true (.store i)))
  | cancelMissed {i : Fin c.slots} (hpc : (s.fut f).pc = .cancel i .remove)
      (hmem : i ∉ s.queue) : FutMove s f (s.setPc f (.cancel i .lock))
  | cancelLock {i : Fin c.slots} (hpc : (s.fut f).pc = .cancel i .lock)
      (hlock : (s.slots i).lock = none) :
      FutMove s f ((s.setLock i (some (.fut f))).setPc f (.cancel i .load))
  | cancelDone {i : Fin c.slots} (hpc : (s.fut f).pc = .cancel i .load)
      (hstate : (s.slots i).state = .done) :
      FutMove s f (s.setPc f (.cancel i (.unlock false)))
  | cancelLoad {i : Fin c.slots} (hpc : (s.fut f).pc = .cancel i .load)
      (hstate : (s.slots i).state ≠ .done) : FutMove s f (s.setPc f (.cancel i .clear))
  | cancelClear {i : Fin c.slots} (hpc : (s.fut f).pc = .cancel i .clear) :
      FutMove s f ((s.setSlot i { s.slots i with shared := none }).setPc f
        (.cancel i .store))
  | cancelStore {i : Fin c.slots} (hpc : (s.fut f).pc = .cancel i .store) :
      FutMove s f ((s.setState i .orphaned).setPc f (.cancel i (.unlock true)))
  | cancelOrphaned {i : Fin c.slots} (hpc : (s.fut f).pc = .cancel i (.unlock true)) :
      FutMove s f ((s.setLock i none).setPc f .dropped)
  | cancelFinished {i : Fin c.slots} (hpc : (s.fut f).pc = .cancel i (.unlock false)) :
      FutMove s f ((s.setLock i none).setPc f (.discard false (.store i)))
  | discardStore {b : Bool} {i : Fin c.slots} (hpc : (s.fut f).pc = .discard b (.store i)) :
      FutMove s f ((s.setState i .free).setPc f (.discard b .lock))
  | discardLock {b : Bool} (hpc : (s.fut f).pc = .discard b .lock)
      (hlock : s.waitersLock = none) :
      FutMove s f ({ s with waitersLock := some (.fut f) }.setPc f (.discard b .wake))
  | discardWake {b : Bool} (hpc : (s.fut f).pc = .discard b .wake) :
      FutMove s f (({ s with waiters := (c.multiWaker.wake s.waiters).1 }.wakeTasks
        (c.multiWaker.wake s.waiters).2).setPc f (.discard b .unlock))
  | discardUnlock {b : Bool} (hpc : (s.fut f).pc = .discard b .unlock) :
      FutMove s f ({ s with waitersLock := none }.setPc f .dropped)

/-- The operations of worker `k`. -/
inductive WrkMove (s : St c) (k : Fin c.threads) : St c → Prop
  | recv {i : Fin c.slots} {rest : Queue (Fin c.slots)} (hpc : s.wrk k = .recv)
      (hqueue : s.queue = i :: rest) :
      WrkMove s k ({ s with queue := rest }.setWrk k (.runner i))
  | runner {i : Fin c.slots} {t : c.Ty} (hpc : s.wrk k = .runner i)
      (hrunner : (s.slots i).runner = some t) : WrkMove s k (s.setWrk k (.take t i .lock))
  | runnerPanic {i : Fin c.slots} (hpc : s.wrk k = .runner i)
      (hrunner : (s.slots i).runner = none) : WrkMove s k (s.setWrk k .panicked)
  | takeLock {t : c.Ty} {i : Fin c.slots} (hpc : s.wrk k = .take t i .lock)
      (hlock : (s.slots i).lock = none) :
      WrkMove s k ((s.setLock i (some (.wrk k))).setWrk k (.take t i .load))
  | takeOrphaned {t : c.Ty} {i : Fin c.slots} (hpc : s.wrk k = .take t i .load)
      (hstate : (s.slots i).state = .orphaned) :
      WrkMove s k (s.setWrk k (.take t i (.unlock none)))
  | takeLoad {t : c.Ty} {i : Fin c.slots} (hpc : s.wrk k = .take t i .load)
      (hstate : (s.slots i).state ≠ .orphaned) :
      WrkMove s k (s.setWrk k (.take t i .shared))
  | takeShared {t : c.Ty} {i : Fin c.slots} (hpc : s.wrk k = .take t i .shared) :
      WrkMove s k (s.setWrk k (.take t i (.op (s.slots i).shared)))
  | takeFault {t : c.Ty} {i : Fin c.slots} {ptr : Option c.Fut}
      (hpc : s.wrk k = .take t i (.op ptr)) (hptr : s.deref t ptr = none) :
      WrkMove s k (s.setWrk k .fault)
  | takeOp {t : c.Ty} {i : Fin c.slots} {ptr : Option c.Fut} {g : c.Fut}
      (hpc : s.wrk k = .take t i (.op ptr)) (hptr : s.deref t ptr = some g) :
      WrkMove s k ((s.setFut g { s.fut g with op := none }).setWrk k
        (.take t i (.unlock (s.fut g).op)))
  | takeNone {t : c.Ty} {i : Fin c.slots} (hpc : s.wrk k = .take t i (.unlock none)) :
      WrkMove s k ((s.setLock i none).setWrk k (.release (.store i)))
  | takeSome {t : c.Ty} {i : Fin c.slots} {op : c.Fut}
      (hpc : s.wrk k = .take t i (.unlock (some op))) :
      WrkMove s k ((s.setLock i none).setWrk k (.exec t i op))
  | exec {t : c.Ty} {i : Fin c.slots} {op : c.Fut} {v : c.Val}
      (hpc : s.wrk k = .exec t i op) :
      WrkMove s k ({ s with execs := s.execs ++ [(op, v)] }.setWrk k
        (.finish t i op v .lock))
  | finishLock {t : c.Ty} {i : Fin c.slots} {op : c.Fut} {v : c.Val}
      (hpc : s.wrk k = .finish t i op v .lock) (hlock : (s.slots i).lock = none) :
      WrkMove s k ((s.setLock i (some (.wrk k))).setWrk k (.finish t i op v .load))
  | finishOrphaned {t : c.Ty} {i : Fin c.slots} {op : c.Fut} {v : c.Val}
      (hpc : s.wrk k = .finish t i op v .load) (hstate : (s.slots i).state = .orphaned) :
      WrkMove s k (s.setWrk k (.finish t i op v (.unlock true)))
  | finishLoad {t : c.Ty} {i : Fin c.slots} {op : c.Fut} {v : c.Val}
      (hpc : s.wrk k = .finish t i op v .load) (hstate : (s.slots i).state ≠ .orphaned) :
      WrkMove s k (s.setWrk k (.finish t i op v .shared))
  | finishShared {t : c.Ty} {i : Fin c.slots} {op : c.Fut} {v : c.Val}
      (hpc : s.wrk k = .finish t i op v .shared) :
      WrkMove s k (s.setWrk k (.finish t i op v (.result (s.slots i).shared)))
  | finishFault {t : c.Ty} {i : Fin c.slots} {op : c.Fut} {v : c.Val} {ptr : Option c.Fut}
      (hpc : s.wrk k = .finish t i op v (.result ptr)) (hptr : s.deref t ptr = none) :
      WrkMove s k (s.setWrk k .fault)
  | finishResult {t : c.Ty} {i : Fin c.slots} {op : c.Fut} {v : c.Val} {ptr : Option c.Fut}
      {g : c.Fut} (hpc : s.wrk k = .finish t i op v (.result ptr))
      (hptr : s.deref t ptr = some g) :
      WrkMove s k ({ s.setFut g { s.fut g with result := some v } with
        writes := s.writes ++ [(g, op, v)] }.setWrk k (.finish t i op v .store))
  | finishStore {t : c.Ty} {i : Fin c.slots} {op : c.Fut} {v : c.Val}
      (hpc : s.wrk k = .finish t i op v .store) :
      WrkMove s k ((s.setState i .done).setWrk k (.finish t i op v (.unlock false)))
  | finishAbandon {t : c.Ty} {i : Fin c.slots} {op : c.Fut} {v : c.Val}
      (hpc : s.wrk k = .finish t i op v (.unlock true)) :
      WrkMove s k ((s.setLock i none).setWrk k (.release (.store i)))
  | finishUnlock {t : c.Ty} {i : Fin c.slots} {op : c.Fut} {v : c.Val}
      (hpc : s.wrk k = .finish t i op v (.unlock false)) :
      WrkMove s k ((s.setLock i none).setWrk k (.wake i op))
  | wake {i : Fin c.slots} {op : c.Fut} (hpc : s.wrk k = .wake i op) :
      WrkMove s k (((s.setSlot i { s.slots i with
          waker := (c.atomicWaker.wake (s.slots i).waker).1 }).wakeTasks
        (c.atomicWaker.wake (s.slots i).waker).2.toList).setWrk k .recv)
  | releaseStore {i : Fin c.slots} (hpc : s.wrk k = .release (.store i)) :
      WrkMove s k ((s.setState i .free).setWrk k (.release .lock))
  | releaseLock (hpc : s.wrk k = .release .lock) (hlock : s.waitersLock = none) :
      WrkMove s k ({ s with waitersLock := some (.wrk k) }.setWrk k (.release .wake))
  | releaseWake (hpc : s.wrk k = .release .wake) :
      WrkMove s k (({ s with waiters := (c.multiWaker.wake s.waiters).1 }.wakeTasks
        (c.multiWaker.wake s.waiters).2).setWrk k (.release .unlock))
  | releaseUnlock (hpc : s.wrk k = .release .unlock) :
      WrkMove s k ({ s with waitersLock := none }.setWrk k .recv)

/-- A step of the pool: an operation of a future or of a worker. -/
inductive Move (s s' : St c) : Prop
  | fut (f : c.Fut) (h : FutMove s f s')
  | wrk (k : Fin c.threads) (h : WrkMove s k s')

variable {s s' : St c}

theorem FutMove.of_poll {f : c.Fut} {w : c.Waker} (h : s.poll f w = some s') :
    FutMove s f s' := by
  unfold St.poll at h
  split at h
  · cases h
    exact .pollFirst ‹_› ‹_› ‹_›
  · cases h
    exact .pollAgain ‹_› ‹_›
  · cases h

theorem FutMove.of_drop {f : c.Fut} (h : s.drop f = some s') : FutMove s f s' := by
  unfold St.drop at h
  split at h
  · cases h
    exact .dropUnclaimed ‹_› ‹_›
  · cases h
    exact .dropClaimed ‹_› ‹_›
  · cases h

theorem FutMove.of_claimStep {f : c.Fut} {w : c.Waker} {p : ClaimPc c}
    (hpc : (s.fut f).pc = .claim w p) (h : s.claimStep f w p = some s') : FutMove s f s' := by
  cases p with
  | lock =>
    simp only [St.claimStep] at h
    split at h
    · cases h
    · cases h
      exact .claimLock hpc ‹_›
  | scan i =>
    simp only [St.claimStep] at h
    split at h
    · rename_i hi
      split at h
      · cases h
        exact .claimTake (i := ⟨i, hi⟩) hpc ‹_›
      · cases h
        exact .claimSkip (i := ⟨i, hi⟩) hpc ‹_›
    · cases h
      exact .claimEnd hpc (by omega)
  | register =>
    cases h
    exact .claimRegister hpc
  | unlock r =>
    cases r with
    | none =>
      cases h
      exact .claimNone hpc
    | some i =>
      cases h
      exact .claimSome hpc

theorem FutMove.of_submitStep {f : c.Fut} {w : c.Waker} {i : Fin c.slots} {p : SubmitPc}
    (hpc : (s.fut f).pc = .submit w i p) : FutMove s f (s.submitStep f w i p) := by
  cases p with
  | setSlot => exact .setSlot hpc
  | register => exact .registerFirst hpc
  | setShared => exact .setShared hpc
  | setRunner => exact .setRunner hpc
  | startOnce =>
    simp only [St.submitStep]
    split
    · exact .startedBefore hpc ‹_›
    · rename_i hstarted
      exact .startOnce hpc (Bool.eq_false_iff.mpr hstarted)
  | startWorker k =>
    simp only [St.submitStep]
    split
    · rename_i hk
      simp only [St.startWorker]
      split
      · exact .startWorker (k := ⟨k, hk⟩) hpc ‹_›
      · exact .startRunning (k := ⟨k, hk⟩) hpc
    · exact .startEnd hpc
  | storeQueued => exact .storeQueued hpc
  | send => exact .send hpc

theorem FutMove.of_cancelStep {f : c.Fut} {i : Fin c.slots} {p : CancelPc}
    (hpc : (s.fut f).pc = .cancel i p) (h : s.cancelStep f i p = some s') :
    FutMove s f s' := by
  cases p with
  | remove =>
    simp only [St.cancelStep] at h
    split at h
    · rename_i hmem
      cases h
      exact .cancelRemoved hpc (by simpa [Queue.remove] using hmem)
    · rename_i hmem
      cases h
      exact .cancelMissed hpc (by simpa [Queue.remove] using hmem)
  | lock =>
    simp only [St.cancelStep] at h
    split at h
    · cases h
    · cases h
      exact .cancelLock hpc ‹_›
  | load =>
    simp only [St.cancelStep] at h
    split at h
    · cases h
      exact .cancelDone hpc ‹_›
    · cases h
      exact .cancelLoad hpc ‹_›
  | clear =>
    cases h
    exact .cancelClear hpc
  | store =>
    cases h
    exact .cancelStore hpc
  | unlock b =>
    cases b with
    | true =>
      cases h
      exact .cancelOrphaned hpc
    | false =>
      cases h
      exact .cancelFinished hpc

theorem FutMove.of_futStep {f : c.Fut} (h : s.futStep f = some s') : FutMove s f s' := by
  unfold St.futStep at h
  cases hpc : (s.fut f).pc <;> simp only [hpc] at h
  case idle => cases h
  case claim w p => exact .of_claimStep hpc h
  case submit w i p =>
    cases h
    exact .of_submitStep hpc
  case register w i =>
    cases h
    exact .register hpc
  case load i =>
    split at h
    · cases h
      exact .loadDone hpc ‹_›
    · cases h
      exact .loadPending hpc ‹_›
  case takeResult i =>
    split at h
    · cases h
      exact .takeResult hpc ‹_›
    · cases h
      exact .takePanic hpc ‹_›
  case clearSlot i v =>
    cases h
    exact .clearSlot hpc
  case ready v p =>
    cases p with
    | store i =>
      cases h
      exact .readyStore hpc
    | lock =>
      cases hw : s.waitersLock with
      | some q => simp [St.releaseStep, hw] at h
      | none =>
        simp only [St.releaseStep, hw, Option.map_some] at h
        cases h
        exact .readyLock hpc hw
    | wake =>
      cases h
      exact .readyWake hpc
    | unlock =>
      cases h
      exact .readyUnlock hpc
  case cancel i p => exact .of_cancelStep hpc h
  case discard b p =>
    cases p with
    | store i =>
      cases h
      exact .discardStore hpc
    | lock =>
      cases hw : s.waitersLock with
      | some q => simp [St.releaseStep, hw] at h
      | none =>
        simp only [St.releaseStep, hw, Option.map_some] at h
        cases h
        exact .discardLock hpc hw
    | wake =>
      cases h
      exact .discardWake hpc
    | unlock =>
      cases h
      exact .discardUnlock hpc
  case dropped => cases h
  case panicked => cases h

theorem WrkMove.of_takeStep {k : Fin c.threads} {t : c.Ty} {i : Fin c.slots} {p : TakePc c}
    (hpc : s.wrk k = .take t i p) (h : s.takeStep k t i p = some s') : WrkMove s k s' := by
  cases p with
  | lock =>
    simp only [St.takeStep] at h
    split at h
    · cases h
    · cases h
      exact .takeLock hpc ‹_›
  | load =>
    simp only [St.takeStep] at h
    split at h
    · cases h
      exact .takeOrphaned hpc ‹_›
    · cases h
      exact .takeLoad hpc ‹_›
  | shared =>
    cases h
    exact .takeShared hpc
  | op ptr =>
    simp only [St.takeStep] at h
    split at h
    · cases h
      exact .takeFault hpc ‹_›
    · cases h
      exact .takeOp hpc ‹_›
  | unlock op =>
    cases op with
    | none =>
      cases h
      exact .takeNone hpc
    | some op =>
      cases h
      exact .takeSome hpc

theorem WrkMove.of_finishStep {k : Fin c.threads} {t : c.Ty} {i : Fin c.slots} {op : c.Fut}
    {v : c.Val} {p : FinishPc c} (hpc : s.wrk k = .finish t i op v p)
    (h : s.finishStep k t i op v p = some s') : WrkMove s k s' := by
  cases p with
  | lock =>
    simp only [St.finishStep] at h
    split at h
    · cases h
    · cases h
      exact .finishLock hpc ‹_›
  | load =>
    simp only [St.finishStep] at h
    split at h
    · cases h
      exact .finishOrphaned hpc ‹_›
    · cases h
      exact .finishLoad hpc ‹_›
  | shared =>
    cases h
    exact .finishShared hpc
  | result ptr =>
    simp only [St.finishStep] at h
    split at h
    · cases h
      exact .finishFault hpc ‹_›
    · cases h
      exact .finishResult hpc ‹_›
  | store =>
    cases h
    exact .finishStore hpc
  | unlock b =>
    cases b with
    | true =>
      cases h
      exact .finishAbandon hpc
    | false =>
      cases h
      exact .finishUnlock hpc

theorem WrkMove.of_wrkStep {k : Fin c.threads} {v : c.Val} (h : s.wrkStep k v = some s') :
    WrkMove s k s' := by
  unfold St.wrkStep at h
  cases hpc : s.wrk k <;> simp only [hpc] at h
  case off => cases h
  case recv =>
    split at h
    · cases h
    · rename_i i rest hq
      cases h
      exact .recv hpc (Queue.recv_eq_some.mp hq)
  case runner i =>
    split at h
    · cases h
      exact .runner hpc ‹_›
    · cases h
      exact .runnerPanic hpc ‹_›
  case take t i p => exact .of_takeStep hpc h
  case exec t i op =>
    cases h
    exact .exec hpc
  case finish t i op v p => exact .of_finishStep hpc h
  case wake i op =>
    cases h
    exact .wake hpc
  case release p =>
    cases p with
    | store i =>
      cases h
      exact .releaseStore hpc
    | lock =>
      cases hw : s.waitersLock with
      | some q => simp [St.releaseStep, hw] at h
      | none =>
        simp only [St.releaseStep, hw, Option.map_some] at h
        cases h
        exact .releaseLock hpc hw
    | wake =>
      cases h
      exact .releaseWake hpc
    | unlock =>
      cases h
      exact .releaseUnlock hpc
  case panicked => cases h
  case fault => cases h

/-- Every step of the pool is an operation of a future or of a worker. -/
theorem Move.of_step {a : Act c} (h : (pool c).step s a = some s') : Move s s' := by
  cases a with
  | poll f w => exact .fut f (.of_poll h)
  | drop f => exact .fut f (.of_drop h)
  | fut f => exact .fut f (.of_futStep h)
  | wrk k v => exact .wrk k (.of_wrkStep h)

/-! ## What the operations leave as it is -/

/-- An operation of a future leaves the other futures. -/
theorem FutMove.fut_of_ne {f g : c.Fut} (hm : FutMove s f s') (hg : g ≠ f) :
    s'.fut g = s.fut g := by
  cases hm <;> simp [hg]

/-- An operation of a future leaves all closures in their cells. -/
theorem FutMove.op {f : c.Fut} (hm : FutMove s f s') (g : c.Fut) :
    (s'.fut g).op = (s.fut g).op := by
  by_cases hg : g = f
  · subst hg
    cases hm <;> simp
  · rw [hm.fut_of_ne hg]

/-- An operation of a future leaves the workers, except that it may start one. -/
theorem FutMove.wrk {f : c.Fut} (hm : FutMove s f s') (k : Fin c.threads) :
    s'.wrk k = s.wrk k ∨ s.wrk k = .off ∧ s'.wrk k = .recv := by
  cases hm with
  | @startWorker w i l hpc hoff =>
    by_cases hk : k = l
    · subst hk
      exact Or.inr ⟨hoff, by simp⟩
    · exact Or.inl (by simp [hk])
  | _ => exact Or.inl rfl

/-- An operation of a worker leaves the other workers. -/
theorem WrkMove.wrk_of_ne {k l : Fin c.threads} (hm : WrkMove s k s') (hl : l ≠ k) :
    s'.wrk l = s.wrk l := by
  cases hm <;> simp [hl]

/-- An operation of a worker leaves every future in its poll. -/
theorem WrkMove.fut {k : Fin c.threads} (hm : WrkMove s k s') (g : c.Fut) :
    (s'.fut g).pc = (s.fut g).pc ∧ (s'.fut g).slot = (s.fut g).slot := by
  cases hm with
  | @takeOp t i ptr f hpc hptr | @finishResult t i op v ptr f hpc hptr =>
    -- These two write a cell of the `Shared`.
    by_cases hg : g = f <;> simp [hg]
  | _ => exact ⟨rfl, rfl⟩

/-- What an operation of a future does to the state of a slot. It stores no `Done`, and the
lock of `waiters` is next when it has stored `Free`. -/
theorem FutMove.state {f : c.Fut} (hm : FutMove s f s') (j : Fin c.slots) :
    (s'.slots j).state = (s.slots j).state ∨
    (s'.slots j).state ≠ .free ∧ (s'.slots j).state ≠ .done ∨
    (s'.slots j).state = .free ∧
      ((∃ v, (s'.fut f).pc = .ready v .lock) ∨ ∃ b, (s'.fut f).pc = .discard b .lock) := by
  cases hm with
  | @claimTake w i hpc | @storeQueued w i hpc | @cancelStore i hpc =>
    by_cases hj : j = i
    · exact Or.inr (Or.inl (by simp [hj]))
    · exact Or.inl (by simp [hj])
  | @readyStore v i hpc | @discardStore b i hpc =>
    by_cases hj : j = i
    · exact Or.inr (Or.inr (by simp [hj]))
    · exact Or.inl (by simp [hj])
  | @registerFirst w i hpc | @setShared w i hpc | @setRunner w i hpc | @register w i hpc
  | @cancelLock i hpc | @cancelClear i hpc | @cancelOrphaned i hpc | @cancelFinished i hpc =>
    -- These write another field of a slot.
    refine Or.inl ?_
    by_cases hj : j = i <;> simp [hj]
  | _ => exact Or.inl rfl

/-- What an operation of a worker does to the state of a slot. It stores `Done` when it has
finished the closure, and `Free` when it has given the slot up. -/
theorem WrkMove.state {k : Fin c.threads} (hm : WrkMove s k s') (j : Fin c.slots) :
    (s'.slots j).state = (s.slots j).state ∨
    (s'.slots j).state = .done ∧ (∃ t op v, s.wrk k = .finish t j op v .store ∧
      s'.wrk k = .finish t j op v (.unlock false)) ∨
    (s'.slots j).state = .free ∧ s'.wrk k = .release .lock := by
  cases hm with
  | @finishStore t i op v hpc =>
    by_cases hj : j = i
    · subst hj
      exact Or.inr (Or.inl ⟨by simp, t, op, v, hpc, by simp⟩)
    · exact Or.inl (by simp [hj])
  | @releaseStore i hpc =>
    by_cases hj : j = i
    · exact Or.inr (Or.inr (by simp [hj]))
    · exact Or.inl (by simp [hj])
  | @takeLock t i hpc | @takeNone t i hpc | @takeSome t i op hpc | @finishLock t i op v hpc
  | @finishAbandon t i op v hpc | @finishUnlock t i op v hpc | @wake i op hpc =>
    refine Or.inl ?_
    by_cases hj : j = i <;> simp [hj]
  | _ => exact Or.inl rfl

end ZephyrRust.Blocking
