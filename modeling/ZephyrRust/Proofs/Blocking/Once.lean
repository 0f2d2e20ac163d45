import ZephyrRust.Proofs.Blocking.Exclusive

/-!
# `ZephyrRust.Proofs.Blocking.Once`: a closure runs once, for its own future

A closure is in its future's `Shared.op`, in the hands of the one worker that took it, or
executed. `Tokens` is the invariant that says so. It also follows the value of an execution
to the `Shared.result` that it is written to and to the poll that returns it.
-/

set_option autoImplicit false

namespace ZephyrRust.Blocking

open ZephyrRust.Lib (System)

variable {c : Config} {s s' : St c} {sit : Fin c.slots → Situation c}

/-- The worker has taken the closure of `f` and has not executed it yet. -/
def WrkPc.carries (f : c.Fut) : WrkPc c → Prop
  | .take _ _ (.unlock (some g)) => g = f
  | .exec _ _ g => g = f
  | _ => False

/-- The drop of the future has taken effect: it has removed the slot from `QUEUE`, or it has
had the slot's lock, or the future had no slot. -/
def FutPc.cancelled : FutPc c → Prop
  | .cancel _ .remove => False
  | .cancel _ .lock => False
  | .cancel _ _ => True
  | .discard _ _ => True
  | .dropped => True
  | _ => False

/-- A poll of the future has returned `v`, or has it in hand and releases the slot. -/
def Future.returns (F : Future c) (v : c.Val) : Prop :=
  F.ready = some v ∨ ∃ p, F.pc = .ready v p

/-- The closures and their values. -/
structure Tokens (s : St c) : Prop where
  /-- The cell `op` holds the closure of its own future. -/
  own : ∀ f g, (s.fut f).op = some g → g = f
  /-- A closure in its cell is not executed. -/
  kept : ∀ f, (s.fut f).op ≠ none → ∀ v, (f, v) ∉ s.execs
  /-- A closure in the hands of a worker is in no cell, and is not executed. -/
  carried : ∀ k f, (s.wrk k).carries f → (s.fut f).op = none ∧ ∀ v, (f, v) ∉ s.execs
  /-- A closure is in the hands of one worker. -/
  one : ∀ k l f, (s.wrk k).carries f → (s.wrk l).carries f → k = l
  /-- A closure that left its cell is in the hands of a worker, or executed. -/
  taken : ∀ f, (s.fut f).op = none → (∃ k, (s.wrk k).carries f) ∨ ∃ v, (f, v) ∈ s.execs
  /-- No closure is executed twice. -/
  nodup : (s.execs.map Prod.fst).Nodup
  /-- A poll returns a value of its own closure. -/
  returned : ∀ f v, (s.fut f).returns v → (f, v) ∈ s.execs
  /-- A value is written to the future of its closure. -/
  written : ∀ g op v, (g, op, v) ∈ s.writes → g = op ∧ (op, v) ∈ s.execs

namespace Owned

/-- The slot that a worker is in the critical section of, before it stored `Done` there. -/
theorem derefs_owner (h : Owned s sit) (hl : Locked s) {k : Fin c.threads} {t : c.Ty}
    {i : Fin c.slots} {ptr : Option c.Fut} {g : c.Fut} (hk : (s.wrk k).derefs t i ptr)
    (hg : s.deref t ptr = some g) :
    Working i g (s.fut g).op (s.fut g).result s.execs (s.wrk k) ∧
      ¬(s.fut g).pc.cancelled := by
  have hin : (s.wrk k).inSlot = some i := by
    rcases hk with hk | ⟨op, v, hk⟩ <;> simp [hk, WrkPc.inSlot]
  obtain ⟨f, hq, hptr, -, -⟩ := h.derefs hl hk
  cases hptr.symm.trans (s.deref_eq_some hg)
  have hs := h.slot i
  rw [hq] at hs
  refine ⟨hs.2.2.2.2, ?_⟩
  rcases (hs.shared hl hin).2 with ⟨-, hw⟩ | hpc
  · unfold FutPc.cancelled
    split at hw <;> simp_all
  · simp [hpc, FutPc.cancelled]

/-- The poll that has read `Done` finds a value of its own closure. -/
theorem result_executed (h : Owned s sit) {f : c.Fut} {i : Fin c.slots} {v : c.Val}
    (hpc : (s.fut f).pc = .takeResult i ∧ (s.fut f).result = some v ∨
      (s.fut f).pc = .clearSlot i v) : (f, v) ∈ s.execs := by
  have hown := h.own f i (by rcases hpc with ⟨hpc, -⟩ | hpc <;> simp [Future.owns, hpc])
  have hs := h.slot i
  generalize sit i = q at hown hs
  rcases hpc with ⟨hpc, hv⟩ | hpc <;> cases q <;>
    simp_all [SlotInv, Situation.owner, Claiming, Waiting, Watching, Collecting]

end Owned

/-- A step that moves no closure keeps `Tokens`. A poll may get a value of its closure in
hand, and a worker may write a value to the future of its closure. -/
theorem Tokens.frame (h : Tokens s) (hop : ∀ f, (s'.fut f).op = (s.fut f).op)
    (hcar : ∀ k f, (s'.wrk k).carries f ↔ (s.wrk k).carries f) (hexecs : s'.execs = s.execs)
    (hwrites : ∀ g op v, (g, op, v) ∈ s'.writes →
      (g, op, v) ∈ s.writes ∨ g = op ∧ (op, v) ∈ s.execs)
    (hret : ∀ f v, (s'.fut f).returns v → (s.fut f).returns v ∨ (f, v) ∈ s.execs) :
    Tokens s' where
  own f g := by
    rw [hop]
    exact h.own f g
  kept f := by
    rw [hop, hexecs]
    exact h.kept f
  carried k f := by
    rw [hcar, hop, hexecs]
    exact h.carried k f
  one k l f := by
    rw [hcar, hcar]
    exact h.one k l f
  taken f := by
    simp only [hop, hcar, hexecs]
    exact h.taken f
  nodup := by
    rw [hexecs]
    exact h.nodup
  returned f v hv := by
    rw [hexecs]
    rcases hret f v hv with hr | hx
    · exact h.returned f v hr
    · exact hx
  written g op v hv := by
    rw [hexecs]
    rcases hwrites g op v hv with hw | hx
    · exact h.written g op v hw
    · exact hx

/-- An operation of a future moves no closure. -/
theorem Tokens.futMove {f : c.Fut} (h : Tokens s) (ho : Owned s sit) (hm : FutMove s f s') :
    Tokens s' := by
  have hop := hm.op
  have hcar : ∀ k g, (s'.wrk k).carries g ↔ (s.wrk k).carries g := by
    intro k g
    -- A worker that is just started carries nothing.
    rcases hm.wrk k with he | ⟨hoff, hrecv⟩
    · rw [he]
    · simp [hoff, hrecv, WrkPc.carries]
  have hret : ∀ g v, (s'.fut g).returns v → (s.fut g).returns v ∨ (g, v) ∈ s.execs := by
    intro g v
    by_cases hg : g = f
    · subst hg
      cases hm with
      | clearSlot hpc =>
        have hv := ho.result_executed (.inr hpc)
        simp only [Future.returns, St.setFut, Function.update_self]
        rintro (hr | ⟨p, hp⟩)
        · exact Or.inl (Or.inl hr)
        · cases hp
          exact Or.inr hv
      | _ => simp_all [Future.returns]
    · rw [hm.fut_of_ne hg]
      exact Or.inl
  cases hm <;> exact h.frame hop hcar rfl (fun _ _ _ => Or.inl) hret

/-- A worker takes the closure of `g` out of its cell. -/
theorem Tokens.take (h : Tokens s) {k : Fin c.threads} {t : c.Ty} {i : Fin c.slots}
    {g : c.Fut} (hk : ∀ f, ¬(s.wrk k).carries f) (hg : (s.fut g).op = some g) :
    Tokens ((s.setFut g { s.fut g with op := none }).setWrk k
      (.take t i (.unlock (s.fut g).op))) := by
  have hkept := h.kept g (by simp [hg])
  -- The closure was in its cell, so no worker carries it.
  have hfree : ∀ l, ¬(s.wrk l).carries g := fun l hl => by
    have := (h.carried l g hl).1
    simp [hg] at this
  have hcar : ∀ l f, (Function.update s.wrk k (.take t i (.unlock (some g))) l).carries f ↔
      (s.wrk l).carries f ∨ l = k ∧ f = g := by
    intro l f
    by_cases hl : l = k
    · subst hl
      rw [Function.update_self]
      simp only [hk f, false_or, true_and]
      exact eq_comm
    · simp [hl]
  have hop : ∀ f, (Function.update s.fut g { s.fut g with op := none } f).op =
      if f = g then none else (s.fut f).op := by
    intro f
    by_cases hf : f = g <;> simp [hf]
  constructor <;> simp only [St.setWrk, St.setFut, hg, hcar, hop]
  · intro f g' hf
    split at hf
    · cases hf
    · exact h.own f g' hf
  · intro f hf
    split at hf
    · exact absurd rfl hf
    · exact h.kept f hf
  · rintro l f (hl | ⟨rfl, rfl⟩)
    · obtain ⟨hnone, hnew⟩ := h.carried l f hl
      exact ⟨by rw [hnone, ite_self], hnew⟩
    · exact ⟨if_pos rfl, hkept⟩
  · rintro l m f (hl | ⟨rfl, rfl⟩) (hm | ⟨rfl, hf⟩)
    · exact h.one l m f hl hm
    · exact absurd (hf ▸ hl) (hfree l)
    · exact absurd hm (hfree m)
    · rfl
  · intro f hf
    by_cases hfg : f = g
    · exact Or.inl ⟨k, Or.inr ⟨rfl, hfg⟩⟩
    · rw [if_neg hfg] at hf
      exact (h.taken f hf).imp_left fun ⟨l, hl⟩ => ⟨l, Or.inl hl⟩
  · exact h.nodup
  · intro f v hv
    refine h.returned f v ?_
    by_cases hfg : f = g
    · simpa [hfg, Future.returns] using hv
    · simpa [hfg, Future.returns] using hv
  · exact h.written

/-- A worker executes the closure that it carries. -/
theorem Tokens.exec (h : Tokens s) {k : Fin c.threads} {t : c.Ty} {i : Fin c.slots}
    {g : c.Fut} {v : c.Val} (hk : s.wrk k = .exec t i g) :
    Tokens ({ s with execs := s.execs ++ [(g, v)] }.setWrk k (.finish t i g v .lock)) := by
  have hg : (s.wrk k).carries g := by
    rw [hk]
    rfl
  obtain ⟨hnone, hnew⟩ := h.carried k g hg
  have hcar : ∀ l f, (Function.update s.wrk k (.finish t i g v .lock) l).carries f ↔
      (s.wrk l).carries f ∧ f ≠ g := by
    intro l f
    by_cases hl : l = k
    · simp [hl, hk, WrkPc.carries, eq_comm]
    · simp only [hl, Function.update_of_ne, ne_eq, not_false_eq_true]
      refine ⟨fun hf => ⟨hf, fun hfg => hl ?_⟩, And.left⟩
      subst hfg
      exact h.one l k f hf hg
  constructor <;> simp only [St.setWrk, hcar, List.mem_append, List.mem_singleton,
    Prod.mk.injEq, List.map_append, List.map_cons, List.map_nil]
  · exact h.own
  · rintro f hf v' (hx | ⟨rfl, -⟩)
    · exact h.kept f hf v' hx
    · exact hf hnone
  · rintro l f ⟨hl, hne⟩
    obtain ⟨hnone', hnew'⟩ := h.carried l f hl
    refine ⟨hnone', ?_⟩
    rintro v' (hx | ⟨hf, -⟩)
    · exact hnew' v' hx
    · exact hne hf
  · rintro l m f ⟨hl, -⟩ ⟨hm, -⟩
    exact h.one l m f hl hm
  · intro f hf
    by_cases hfg : f = g
    · exact Or.inr ⟨v, Or.inr ⟨hfg, rfl⟩⟩
    · rcases h.taken f hf with ⟨l, hl⟩ | ⟨v', hv'⟩
      · exact Or.inl ⟨l, hl, hfg⟩
      · exact Or.inr ⟨v', Or.inl hv'⟩
  · -- The closure was not executed before.
    refine h.nodup.append (List.nodup_singleton g) (List.disjoint_singleton.mpr fun hx => ?_)
    obtain ⟨⟨g', v'⟩, hv', rfl⟩ := List.mem_map.mp hx
    exact hnew v' hv'
  · exact fun f v' hv' => Or.inl (h.returned f v' hv')
  · intro g' op v' hw
    obtain ⟨hop, hx⟩ := h.written g' op v' hw
    exact ⟨hop, Or.inl hx⟩

/-- An operation of a worker takes a closure, executes it, or moves none. -/
theorem Tokens.wrkMove {k : Fin c.threads} (h : Tokens s) (ho : Owned s sit) (hl : Locked s)
    (hm : WrkMove s k s') : Tokens s' := by
  cases hm with
  | @takeOp t i ptr g hpc hptr =>
    obtain ⟨hwork, -⟩ := ho.derefs_owner hl (.inl hpc) hptr
    rw [hpc] at hwork
    exact h.take (by simp [hpc, WrkPc.carries]) hwork.2.2.2.1
  | exec hpc => exact h.exec hpc
  | @finishResult t i op v ptr g hpc hptr =>
    obtain ⟨hwork, -⟩ := ho.derefs_owner hl (.inr ⟨op, v, hpc⟩) hptr
    rw [hpc] at hwork
    obtain ⟨-, -, hop, -, hv, -⟩ := hwork
    refine h.frame (fun f => ?_) (fun l f => ?_) rfl (fun g' op' v' hw => ?_) (fun f v => ?_)
    · by_cases hf : f = g <;> simp [hf]
    · by_cases hlk : l = k <;> simp [hlk, hpc, WrkPc.carries]
    · rcases List.mem_append.mp hw with hw | hw
      · exact Or.inl hw
      · cases List.mem_singleton.mp hw
        exact Or.inr ⟨hop.symm, hop ▸ hv⟩
    · by_cases hf : f = g <;> simp [hf, Future.returns] <;> tauto
  | _ =>
    refine h.frame (fun f => rfl) (fun l f => ?_) rfl (fun _ _ _ => Or.inl) (fun f v => Or.inl)
    by_cases hlk : l = k <;> simp_all [WrkPc.carries]

/-- At the start every closure is in its cell. -/
theorem tokens_init : Tokens (init c) := by
  constructor <;> simp [init, Future.new, Future.returns, WrkPc.carries]

/-- `Tokens` holds in every reachable state. -/
theorem Tokens.of_reachable (h : (pool c).Reachable s) : Tokens s := by
  refine (h.invariant (I := fun s => Inv s ∧ Tokens s)
    ⟨Inv.of_reachable .start, tokens_init⟩ ?_).2
  rintro s a s' ⟨hi, ht⟩ hs
  have hm := Move.of_step hs
  refine ⟨hi.move hm, ?_⟩
  obtain ⟨hl, sit, ho⟩ := hi
  cases hm with
  | fut f hm => exact ht.futMove ho hm
  | wrk k hm => exact ht.wrkMove ho hl hm

/-- A future whose drop has taken effect stays so. -/
theorem cancelled_stable {f : c.Fut} (h : (s.fut f).pc.cancelled) (hm : Move s s') :
    (s'.fut f).pc.cancelled := by
  cases hm with
  | fut g hm =>
    by_cases hg : f = g
    · subst hg
      cases hm <;> simp_all [FutPc.cancelled]
    · rwa [hm.fut_of_ne hg]
  | wrk k hm => rwa [(hm.fut f).1]

/-- After the drop of `f` has taken effect, no worker takes its closure. -/
theorem Inv.op_stable (h : Inv s) {f : c.Fut} (hf : (s.fut f).pc.cancelled)
    (hm : Move s s') : (s'.fut f).op = (s.fut f).op := by
  obtain ⟨hl, sit, ho⟩ := h
  cases hm with
  | fut g hm => exact hm.op f
  | wrk k hm =>
    cases hm with
    | @takeOp t i ptr g hpc hptr =>
      obtain ⟨-, hlive⟩ := ho.derefs_owner hl (.inl hpc) hptr
      -- The worker takes the closure of a live future.
      have hg : f ≠ g := fun hg => hlive (hg ▸ hf)
      simp [hg]
    | @finishResult t i op v ptr g hpc hptr => by_cases hg : f = g <;> simp [hg]
    | _ => rfl

/-- After the drop of `f` has taken effect, no worker writes a value of its closure. -/
theorem Inv.writes_stable (h : Inv s) {f : c.Fut} (hf : (s.fut f).pc.cancelled)
    (hm : Move s s') {g : c.Fut} {v : c.Val} (hw : (g, f, v) ∈ s'.writes) :
    (g, f, v) ∈ s.writes := by
  obtain ⟨hl, sit, ho⟩ := h
  cases hm with
  | fut g hm => cases hm <;> exact hw
  | wrk k hm =>
    cases hm with
    | @finishResult t i op v' ptr g' hpc hptr =>
      obtain ⟨hwork, hlive⟩ := ho.derefs_owner hl (.inr ⟨op, v', hpc⟩) hptr
      rw [hpc] at hwork
      rcases List.mem_append.mp hw with hw | hw
      · exact hw
      · cases List.mem_singleton.mp hw
        exact absurd (hwork.2.2.1 ▸ hf) hlive
    | _ => exact hw

/-- What holds of a future whose drop has taken effect holds of it in every continuation:
its closure stays where it is, and no value of it is written. -/
theorem cancelled_later (hr : (pool c).Reachable s) (hl : (pool c).Later s s') {f : c.Fut}
    (hf : (s.fut f).pc.cancelled) : (s'.fut f).op = (s.fut f).op ∧
      ∀ g v, (g, f, v) ∈ s'.writes → (g, f, v) ∈ s.writes := by
  refine (hl.stable (I := fun s' => (s'.fut f).pc.cancelled ∧ (s'.fut f).op = (s.fut f).op ∧
    ∀ g v, (g, f, v) ∈ s'.writes → (g, f, v) ∈ s.writes) hr
    ⟨hf, rfl, fun _ _ => id⟩ ?_).2
  rintro s₁ a s₂ hr₁ ⟨hf₁, hop, hw⟩ hs
  have hm := Move.of_step hs
  have hi := Inv.of_reachable hr₁
  refine ⟨cancelled_stable hf₁ hm, (hi.op_stable hf₁ hm).trans hop, fun g v hg => ?_⟩
  exact hw g v (hi.writes_stable hf₁ hm hg)

/-- The worker that carries a closure executes it with its next operations. It waits for
nothing. -/
theorem WrkPc.carries.executes {k : Fin c.threads} {f : c.Fut} (h : (s.wrk k).carries f)
    (v : c.Val) : ∃ n ≤ 2, ∃ s', (pool c).exec s (List.replicate n (.wrk k v)) = some s' ∧
      (f, v) ∈ s'.execs := by
  unfold WrkPc.carries at h
  split at h
  · rename_i t i g hpc
    subst h
    refine ⟨2, Nat.le_refl 2, _, by simp [System.exec, pool, St.wrkStep, St.takeStep, hpc]; rfl, ?_⟩
    simp
  · rename_i t i g hpc
    subst h
    refine ⟨1, by simp, _, by simp [System.exec, pool, St.wrkStep, hpc]; rfl, ?_⟩
    simp
  · exact h.elim

/-- Exactly-once execution and delivery, in every state of every run of the pool.

* No closure is executed twice.
* A future that returned `Ready(v)` returned the value of the one execution of its closure.
* When the drop of a future takes effect before a worker took the closure, the closure is
  never executed.
* A closure that a worker took is in the hands of one worker, which executes it with its
  next operations, or was executed once.
* When the drop of a future takes effect before the value of its closure is written, the
  value is never written to any future. A value that is written is written to the future
  of its closure.
* Neither panic is reached. -/
theorem closure_runs_once (h : (pool c).Reachable s) :
    (s.execs.map Prod.fst).Nodup ∧
    (∀ f v, (s.fut f).ready = some v →
      (f, v) ∈ s.execs ∧ (s.execs.map Prod.fst).count f = 1) ∧
    (∀ f, (s.fut f).pc.cancelled → (s.fut f).op ≠ none →
      ∀ s', (pool c).Later s s' → ∀ v, (f, v) ∉ s'.execs) ∧
    (∀ f, (s.fut f).op = none →
      (∃! k, (s.wrk k).carries f) ∧ (s.execs.map Prod.fst).count f = 0 ∨
      (∀ k, ¬(s.wrk k).carries f) ∧ (s.execs.map Prod.fst).count f = 1) ∧
    (∀ k f v, (s.wrk k).carries f → ∃ n ≤ 2, ∃ s',
      (pool c).exec s (List.replicate n (.wrk k v)) = some s' ∧ (f, v) ∈ s'.execs) ∧
    (∀ f, (s.fut f).pc.cancelled → (∀ g v, (g, f, v) ∉ s.writes) →
      ∀ s', (pool c).Later s s' → ∀ g v, (g, f, v) ∉ s'.writes) ∧
    (∀ g f v, (g, f, v) ∈ s.writes → g = f ∧ (f, v) ∈ s.execs) ∧
    (∀ f, (s.fut f).pc ≠ .panicked) ∧ ∀ k, s.wrk k ≠ .panicked := by
  have ht := Tokens.of_reachable h
  obtain ⟨-, sit, ho⟩ := Inv.of_reachable h
  have hcount : ∀ f v, (f, v) ∈ s.execs → (s.execs.map Prod.fst).count f = 1 := fun f v hv =>
    List.count_eq_one_of_mem ht.nodup (List.mem_map_of_mem hv)
  refine ⟨ht.nodup, fun f v hv => ?_, fun f hf hop s' hl v hv => ?_, fun f hf => ?_,
    fun k f v hk => hk.executes v, fun f hf hw s' hl g v hg => ?_, ht.written, fun f hf => ?_,
    fun k hk => ?_⟩
  · have hx := ht.returned f v (.inl hv)
    exact ⟨hx, hcount f v hx⟩
  · -- The closure stays in its cell, and a closure in its cell is not executed.
    have hop' := (cancelled_later h hl hf).1
    exact (Tokens.of_reachable (h.later hl)).kept f (hop' ▸ hop) v hv
  · rcases ht.taken f hf with ⟨k, hk⟩ | ⟨v, hv⟩
    · refine Or.inl ⟨⟨k, hk, fun l hl => ht.one l k f hl hk⟩, List.count_eq_zero.mpr ?_⟩
      rintro hm
      obtain ⟨⟨g, v⟩, hv, rfl⟩ := List.mem_map.mp hm
      exact (ht.carried k g hk).2 v hv
    · exact Or.inr ⟨fun k hk => (ht.carried k f hk).2 v hv, hcount f v hv⟩
  · exact hw g v ((cancelled_later h hl hf).2 g v hg)
  · have := ho.fut f
    simp [FutOk, hf] at this
  · have := ho.wrk k
    simp [WrkOk, hk] at this

/-- The first future of a pool with one slot is polled, a worker runs its closure, which
returns 7, and the next poll returns it. -/
theorem closure_runs_once_to_ready :
    ∃ s, (pool .single).Reachable s ∧ (s.fut 0).ready = some 7 ∧ (0, 7) ∈ s.execs ∧
      (s.execs.map Prod.fst).count 0 = 1 := by
  obtain ⟨s, hr, hs⟩ := (pool .single).reachable_of_exec
    (.poll 0 0 :: (List.replicate 12 (.fut 0) ++ List.replicate 15 (.wrk 0 7) ++
      .poll 0 1 :: List.replicate 8 (.fut 0)))
    (fun s => (s.fut 0).ready = some 7) rfl
  obtain ⟨-, hready, -⟩ := closure_runs_once hr
  have h7 := of_decide_eq_true hs
  exact ⟨s, hr, h7, hready 0 7 h7⟩

end ZephyrRust.Blocking
