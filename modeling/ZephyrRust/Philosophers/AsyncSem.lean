import ZephyrRust.Philosophers

/-!
# `ZephyrRust.Philosophers.AsyncSem`: the philosophers as async tasks

`samples/async-philosophers/src/async_sem.rs`. Each philosopher is a task that eats `EAT_COUNT`
times and then returns, and the task `phil` waits for all of them. The forks and the end are
`FairSemaphore`s of `embassy_sync`, which hand out their permits in the order of the waiters. The
order of the forks and the statistics are those of the sample with threads.

A step is what a task does up to its next `await`, or less: more interleavings than the executor
has. A poll that finds nothing new is no step, and the timers end at any time. The loop that spawns
the philosophers has no `await`, so the model starts after it.
-/

set_option autoImplicit false

namespace ZephyrRust.Philosophers.AsyncSem

open ZephyrRust.Lib (System)

/-- `FairSemaphore`: the permits, and who waits, the oldest first. -/
structure FairSemaphore (W : Type) where
  permits : Nat
  waiters : List W
  deriving DecidableEq

/-- What a poll of `acquire` finds. -/
inductive Poll (W : Type)
  /-- `Ok`: the permits are taken. -/
  | ready (sem : FairSemaphore W)
  /-- Pending, and new in the queue. -/
  | queued (sem : FairSemaphore W)
  /-- Pending, as before. -/
  | waits
  /-- `Err(WaitQueueFull)`. -/
  | full

namespace FairSemaphore

variable {W : Type} [DecidableEq W]

/-- A poll of `acquire(permits)` by `w`. The queue has room for `cap` waiters. -/
def pollAcquire (sem : FairSemaphore W) (cap : Nat) (w : W) (permits : Nat) : Poll W :=
  if w ∈ sem.waiters then
    if sem.waiters.head? = some w ∧ permits ≤ sem.permits then
      .ready { permits := sem.permits - permits, waiters := sem.waiters.tail }
    else .waits
  else if sem.waiters = [] ∧ permits ≤ sem.permits then
    .ready { sem with permits := sem.permits - permits }
  else if sem.waiters.length < cap then .queued { sem with waiters := sem.waiters ++ [w] }
  else .full

omit [DecidableEq W] in
/-- `release(permits)`. -/
def release (sem : FairSemaphore W) (permits : Nat) : FairSemaphore W :=
  { sem with permits := sem.permits + permits }

end FairSemaphore

/-- `EAT_COUNT`. -/
def eatCount : Nat := 10

/-- Where `one_phil` is. -/
inductive Place
  /-- `forks[0].acquire(1).await.unwrap().disarm()` -/
  | acquireFirst
  /-- `forks[1].acquire(1).await.unwrap().disarm()` -/
  | acquireSecond
  /-- The first `Timer::after(delay)`, with both forks. -/
  | eating
  /-- `forks[1].release(1)` -/
  | releaseSecond
  /-- `forks[0].release(1)` -/
  | releaseFirst
  /-- The second `Timer::after(delay)`. -/
  | thinking
  /-- `DONE_SEM.release(1)` -/
  | releaseDone
  | finished
  /-- An `unwrap` of `acquire`. -/
  | panicked
  deriving DecidableEq

/-- Where `phil` is. -/
inductive Main
  /-- `DONE_SEM.acquire(NUM_PHIL).await.unwrap()` -/
  | acquireDone
  /-- `stats_sig.signal(stats)` -/
  | signal
  | finished
  | panicked
  deriving DecidableEq

/-- A philosopher: the rounds of the loop that are over, and the place in this one. -/
structure Task where
  round : Nat
  place : Place
  deriving DecidableEq

/-- The semaphores, the tasks and the statistics. -/
structure St where
  /-- `FORKS`. -/
  forks : Fork → FairSemaphore Phil
  /-- `DONE_SEM`. -/
  done : FairSemaphore Unit
  task : Phil → Task
  phil : Main
  stats : Stats

namespace St

/-- Philosopher `n` goes on to the place `p` of his round. -/
def goto (s : St) (n : Phil) (p : Place) : St :=
  { s with task := Function.update s.task n { s.task n with place := p } }

/-- Fork `i` becomes `sem`. -/
def setFork (s : St) (i : Fork) (sem : FairSemaphore Phil) : St :=
  { s with forks := Function.update s.forks i sem }

/-- Philosopher `n` polls `forks[i].acquire(1)`, and goes on to the place `p` when he has it. -/
def acquire (s : St) (n : Phil) (i : Fork) (p : Place) : Option St :=
  match (s.forks i).pollAcquire numPhil n 1 with
  | .ready sem => some ((s.setFork i sem).goto n p)
  | .queued sem => some (s.setFork i sem)
  | .waits => none
  | .full => some (s.goto n .panicked)

/-- Philosopher `n` gives back fork `i`, and goes on to the place `p`. -/
def release (s : St) (n : Phil) (i : Fork) (p : Place) : St :=
  (s.setFork i ((s.forks i).release 1)).goto n p

/-- The next step of `one_phil`, for philosopher `n`. `time` is the last delay in milliseconds. -/
def onePhil (s : St) (n : Phil) (time : UInt64) : Option St :=
  match (s.task n).place with
  | .acquireFirst => s.acquire n (Philosophers.forks n).1 .acquireSecond
  | .acquireSecond => s.acquire n (Philosophers.forks n).2 .eating
  | .eating => some ({ s with stats := s.stats.recordEat n time }.goto n .releaseSecond)
  | .releaseSecond => some (s.release n (Philosophers.forks n).2 .releaseFirst)
  | .releaseFirst => some (s.release n (Philosophers.forks n).1 .thinking)
  | .thinking =>
    let round := (s.task n).round + 1
    let place := if round < eatCount then .acquireFirst else .releaseDone
    some
      { s with
        stats := s.stats.recordThink n time
        task := Function.update s.task n ⟨round, place⟩ }
  | .releaseDone => some ({ s with done := s.done.release 1 }.goto n .finished)
  | .finished => none
  | .panicked => none

/-- The next step of `phil`. -/
def main (s : St) : Option St :=
  match s.phil with
  | .acquireDone =>
    match s.done.pollAcquire numPhil () numPhil with
    -- The guard is not disarmed: its drop gives the permits back.
    | .ready sem => some { s with done := sem.release numPhil, phil := .signal }
    | .queued sem => some { s with done := sem }
    | .waits => none
    | .full => some { s with phil := .panicked }
  | .signal => some { s with phil := .finished }
  | .finished => none
  | .panicked => none

end St

/-- The actions. -/
inductive Act
  | onePhil (n : Phil) (time : UInt64)
  | phil

/-- The tasks. -/
def dinner : System St Act where
  init :=
    { forks := fun _ => { permits := 1, waiters := [] }
      done := { permits := 0, waiters := [] }
      task := fun _ => { round := 0, place := .acquireFirst }
      phil := .acquireDone
      stats := .new }
  step s
    | .onePhil n time => s.onePhil n time
    | .phil => s.main

end ZephyrRust.Philosophers.AsyncSem
