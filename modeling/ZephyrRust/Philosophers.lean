import Mathlib.Data.Fin.Basic
import Mathlib.Logic.Function.Basic
import ZephyrRust.Lib.Transition

/-!
# `ZephyrRust.Philosophers`: the dining philosophers over a `ForkSync`

`samples/philosophers/src/lib.rs`. Each philosopher is a thread that runs the loop of
`phil_thread`: he takes his two forks, eats, gives the forks back and thinks. The forks are
behind the trait `ForkSync`, and the configuration selects one of its implementations.

`ForkSync` is such an implementation: its state, the calls of its two methods, and the steps
that the calls take. `dine` is the system of the philosophers over it. A philosopher moves on to
his next statement when his call has returned. The sleeps have no step of their own, because a
philosopher can stay at a place for any time.

`locks` says what a `ForkSync` is for. It is not in the source: the forks are locks, a `take`
waits until the fork has no holder, and each call takes effect in one step.
-/

set_option autoImplicit false

namespace ZephyrRust.Philosophers

open ZephyrRust.Lib (System)

/-- `NUM_PHIL`: how many philosophers, and how many forks. -/
def numPhil : Nat := 6

abbrev Phil := Fin numPhil
abbrev Fork := Fin numPhil

/-- The forks of philosopher `n`, in the order in which `phil_thread` takes them. The last
philosopher reverses his forks. -/
def forks (n : Phil) : Fork × Fork :=
  if h : n.val = numPhil - 1 then (⟨0, by decide⟩, n)
  else (n, ⟨n.val + 1, by have := n.isLt; omega⟩)

/-- `get_random_delay`, in milliseconds: `uptime` is what `uptime_get` returns. -/
def getRandomDelay (id period uptime : Nat) : Nat :=
  let delay := (uptime / 100 * (id + 1)) &&& 0x1f
  -- One greater, so the delay is never zero.
  (delay + 1) * period

/-- `Stats`. -/
structure Stats where
  count : Phil → UInt64
  eating : Phil → UInt64
  thinking : Phil → UInt64

namespace Stats

/-- `Stats::new`. -/
def new : Stats where
  count := fun _ => 0
  eating := fun _ => 0
  thinking := fun _ => 0

/-- `Stats::record_eat`. -/
def recordEat (s : Stats) (index : Phil) (time : UInt64) : Stats :=
  { s with eating := Function.update s.eating index (s.eating index + time) }

/-- `Stats::record_think`. -/
def recordThink (s : Stats) (index : Phil) (time : UInt64) : Stats :=
  { s with
    thinking := Function.update s.thinking index (s.thinking index + time)
    count := Function.update s.count index (s.count index + 1) }

end Stats

/-- The methods of `ForkSync`. -/
inductive ForkOp
  | take (index : Fork)
  | release (index : Fork)
  deriving DecidableEq

/-- An implementation of `ForkSync` with the states `σ`. The calls of its methods take steps,
which are the actions `α`. -/
structure ForkSync (σ α : Type) where
  init : σ
  /-- A philosopher calls a method. -/
  call : σ → Phil → ForkOp → σ
  step : σ → α → Option σ
  /-- The last call of the philosopher has returned. -/
  atRest : σ → Phil → Bool

/-- Where `phil_thread` is. -/
inductive Place
  /-- At the start of the loop. -/
  | hungry
  /-- `syncer.take(forks.0)` -/
  | takeFirst
  /-- `syncer.take(forks.1)` -/
  | takeSecond
  /-- The first `sleep(delay)`, with both forks. -/
  | eating
  /-- `syncer.release(forks.1)` -/
  | releaseSecond
  /-- `syncer.release(forks.0)` -/
  | releaseFirst
  /-- The second `sleep(delay)`. -/
  | thinking
  deriving DecidableEq

/-- The `ForkSync`, the philosophers, and the data of `STAT_MUTEX`. -/
structure Dinner (σ : Type) where
  sync : σ
  place : Phil → Place
  stats : Stats

variable {σ α : Type}

namespace Dinner

/-- Philosopher `n` goes on to the place `p`. -/
def goto (s : Dinner σ) (n : Phil) (p : Place) : Dinner σ :=
  { s with place := Function.update s.place n p }

/-- Philosopher `n` calls a method of the `ForkSync` at the place `p`. -/
def call (s : Dinner σ) (S : ForkSync σ α) (n : Phil) (op : ForkOp) (p : Place) : Dinner σ :=
  { s.goto n p with sync := S.call s.sync n op }

/-- The next statement of `phil_thread`, when the call before it has returned. `uptime` is what
the delay of the last sleep was made from. The lock of `STAT_MUTEX` around an update of the
statistics is one step. -/
def phil (s : Dinner σ) (S : ForkSync σ α) (n : Phil) (uptime : Nat) : Option (Dinner σ) :=
  if S.atRest s.sync n then
    let delay := (getRandomDelay n.val 25 uptime).toUInt64
    match s.place n with
    | .hungry => some (s.call S n (.take (forks n).1) .takeFirst)
    | .takeFirst => some (s.call S n (.take (forks n).2) .takeSecond)
    | .takeSecond => some (s.goto n .eating)
    | .eating =>
      let s := { s with stats := s.stats.recordEat n delay }
      some (s.call S n (.release (forks n).2) .releaseSecond)
    | .releaseSecond => some (s.call S n (.release (forks n).1) .releaseFirst)
    | .releaseFirst => some (s.goto n .thinking)
    | .thinking => some ({ s with stats := s.stats.recordThink n delay }.goto n .hungry)
  else none

end Dinner

/-- The actions: a philosopher performs his next statement, or a call of a method its next
step. -/
inductive Act (α : Type)
  | phil (n : Phil) (uptime : Nat)
  | sync (a : α)

/-- The philosophers over the `ForkSync` `S`. -/
def dine (S : ForkSync σ α) : System (Dinner σ) (Act α) where
  init :=
    { sync := S.init
      place := fun _ => .hungry
      stats := .new }
  step s
    | .phil n uptime => s.phil S n uptime
    | .sync a => (S.step s.sync a).map fun x => { s with sync := x }

/-- The forks that philosopher `n` has at the place `p`: their `take` has returned, and their
`release` is not called. -/
def owned (n : Phil) (p : Place) (atRest : Bool) : List Fork :=
  match p with
  | .takeFirst => if atRest then [(forks n).1] else []
  | .takeSecond => if atRest then [(forks n).1, (forks n).2] else [(forks n).1]
  | .eating => [(forks n).1, (forks n).2]
  | .releaseSecond => [(forks n).1]
  | .hungry | .releaseFirst | .thinking => []

/-! ## The purpose -/

/-- Six locks: the holder of each fork, and the call of each philosopher that has not taken
effect. -/
structure Locks where
  holder : Fork → Option Phil
  call : Phil → Option ForkOp

/-- The call of philosopher `n` takes effect. A `take` waits for a fork without a holder. -/
def Locks.serve (l : Locks) (n : Phil) : Option Locks :=
  match l.call n with
  | some (.take i) =>
    if l.holder i = none then
      some
        { holder := Function.update l.holder i (some n)
          call := Function.update l.call n none }
    else none
  | some (.release i) =>
    some
      { holder := Function.update l.holder i none
        call := Function.update l.call n none }
  | none => none

/-- The forks as locks. -/
def locks : ForkSync Locks Phil where
  init :=
    { holder := fun _ => none
      call := fun _ => none }
  call l n op := { l with call := Function.update l.call n (some op) }
  step := Locks.serve
  atRest l n := (l.call n).isNone

end ZephyrRust.Philosophers
