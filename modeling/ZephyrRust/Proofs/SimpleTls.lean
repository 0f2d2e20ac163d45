import ZephyrRust.SimpleTls

/-!
# `ZephyrRust.Proofs.SimpleTls`: a finite map of the threads

The vector stays sorted by the thread address, so each of the two searches splits it at the
thread (`Lib.Split`). Both ways of `insert` then give the thread its value and leave the others
(`insert_spec`), and `get` reads the map (`get_eq`). `lookup_insertAll` is the induction over the
calls.

`WORK_QUEUES` has the entry of each registered queue under the address of its thread (`Inv`). Two
queues have different thread addresses, so no entry replaces the one of another queue.
-/

set_option autoImplicit false

namespace ZephyrRust

open ZephyrRust.Lib (Search Sorted Split beside insertIdx_length_append mem_keys_iff System)

namespace SimpleTls

variable {T : Type} (search : Search (Nat × T)) {tls : SimpleTls T}

/-- An insert does not panic and keeps the order. It gives the thread its value and leaves the
values of the others. -/
theorem insert_spec (hs : Sorted tls.map) (thread : Nat) (data : T) :
    ∃ tls', insert search tls thread data = some tls' ∧ Sorted tls'.map ∧
      ∀ k, tls'.map.lookup k = if k = thread then some data else tls.map.lookup k := by
  unfold insert
  cases hrun : search.run tls.map (beside thread) with
  | ok pos =>
    -- The entry of the thread is replaced.
    obtain ⟨low, old, high, hmap, hpos, hsplit⟩ := search.split_of_ok hs hrun
    have hset : tls.map.set pos (thread, data) = low ++ (thread, data) :: high := by
      rw [hmap, hpos, List.set_append_right _ _ (Nat.le_refl _), Nat.sub_self, List.set_cons_zero]
    have hlt : pos < tls.map.length := by
      rw [hmap, hpos, List.length_append, List.length_cons]
      omega
    refine ⟨⟨tls.map.set pos (thread, data)⟩, if_pos hlt, ?_, fun k => ?_⟩
    · show Sorted (tls.map.set pos (thread, data))
      rw [hset]
      rw [hmap] at hs
      exact hsplit.sorted hs.remove
    · show (tls.map.set pos (thread, data)).lookup k = _
      rw [hset, hmap, hsplit.lookup, hsplit.lookup]
      split <;> rfl
  | error pos =>
    -- The thread gets an entry of its own.
    obtain ⟨low, high, hmap, hpos, hsplit⟩ := search.split_of_error hs hrun
    have hins : tls.map.insertIdx pos (thread, data) = low ++ (thread, data) :: high := by
      rw [hmap, hpos]
      exact insertIdx_length_append low high _
    have hle : pos ≤ tls.map.length := by
      rw [hmap, hpos, List.length_append]
      omega
    refine ⟨⟨tls.map.insertIdx pos (thread, data)⟩, if_pos hle, ?_, fun k => ?_⟩
    · show Sorted (tls.map.insertIdx pos (thread, data))
      rw [hins]
      rw [hmap] at hs
      exact hsplit.sorted hs
    · show (tls.map.insertIdx pos (thread, data)).lookup k = _
      rw [hins, hmap, hsplit.lookup]

/-- `get` does not panic and reads the map. -/
theorem get_eq (hs : Sorted tls.map) (thread : Nat) :
    get search tls thread = some (tls.map.lookup thread) := by
  unfold get
  cases hrun : search.run tls.map (beside thread) with
  | ok pos =>
    obtain ⟨low, v, high, hmap, hpos, hsplit⟩ := search.split_of_ok hs hrun
    show (tls.map[pos]?.map fun entry => some entry.2) = some (tls.map.lookup thread)
    rw [hmap, hpos, hsplit.lookup, if_pos rfl, List.getElem?_append_right (Nat.le_refl _),
      Nat.sub_self, List.getElem?_cons_zero, Option.map_some]
  | error pos =>
    obtain ⟨low, high, hmap, -, hsplit⟩ := search.split_of_error hs hrun
    show some none = some (tls.map.lookup thread)
    rw [hmap, hsplit.lookup_self]

/-- After the calls, each thread has the value of its last insert, or else what it had before. -/
theorem lookup_insertAll (calls : List (Nat × T)) (hs : Sorted tls.map) :
    ∃ tls', insertAll search tls calls = some tls' ∧ Sorted tls'.map ∧
      ∀ k, tls'.map.lookup k = (calls.reverse.lookup k).or (tls.map.lookup k) := by
  induction calls generalizing tls with
  | nil => exact ⟨tls, rfl, hs, fun k => rfl⟩
  | cons call calls ih =>
    obtain ⟨thread, data⟩ := call
    obtain ⟨tls₁, h₁, hs₁, hlookup₁⟩ := insert_spec search hs thread data
    obtain ⟨tls', h', hs', hlookup'⟩ := ih hs₁
    refine ⟨tls', ?_, hs', fun k => ?_⟩
    · rw [insertAll, h₁]
      exact h'
    · have hlast : [(thread, data)].lookup k = if k = thread then some data else none := by
        rw [List.lookup_cons]
        by_cases hk : k = thread
        · rw [if_pos hk, beq_iff_eq.mpr hk]
        · rw [if_neg hk, beq_false_of_ne hk]
          rfl
      rw [hlookup', hlookup₁, List.reverse_cons, List.lookup_append, hlast, Option.or_assoc]
      split <;> rfl

end SimpleTls

namespace WorkQueue

variable {Tid : Type} [DecidableEq Tid] {search : Search (Nat × WorkQueueRef)} {offset : Nat}
  {s s' : St Tid}

/-- A queue is found under the address of its own thread only. -/
theorem thread_injective {item item' : WorkQueueRef}
    (h : thread offset item = thread offset item') : item = item' := by
  cases item
  cases item'
  simpa [thread] using h

/-- What a thread knows about the registered queues. -/
def Fits (registered : List WorkQueueRef) : Pc → Prop
  | .idle | .insert _ => True
  | .kWorkQueueStart item => item ∈ registered
  | .panicked => False

/-- The invariant: the map has exactly the registered queues, each under its thread, and a queue
runs only after it was registered. -/
structure Inv (offset : Nat) (s : St Tid) : Prop where
  sorted : Sorted s.workQueues.map
  lookup : ∀ current item, s.workQueues.map.lookup current = some item ↔
    item ∈ s.registered ∧ thread offset item = current
  fits : ∀ t, Fits s.registered (s.pc t)
  running : ∀ item ∈ s.running, item ∈ s.registered

/-- The place of one thread changes, and more queues are registered. -/
theorem fits_update {registered registered' : List WorkQueueRef} {pc : Tid → Pc} {t : Tid}
    {p : Pc} (h : ∀ u, Fits registered (pc u)) (hp : Fits registered' p)
    (hsub : ∀ item ∈ registered, item ∈ registered') (u : Tid) :
    Fits registered' (Function.update pc t p u) := by
  by_cases hut : u = t
  · rw [hut, Function.update_self]
    exact hp
  · rw [Function.update_of_ne hut]
    have hu := h u
    cases hpc : pc u with
    | idle | insert => trivial
    | kWorkQueueStart item =>
      rw [hpc] at hu
      exact hsub item hu
    | panicked =>
      rw [hpc] at hu
      exact hu

theorem inv_init : Inv offset (system search offset : System (St Tid) (Action Tid)).init where
  sorted := Sorted.nil
  lookup current item := by simp [system, SimpleTls.new]
  fits t := trivial
  running item h := by cases h

variable (search) in
/-- An insert registers its queue. It does not panic. -/
theorem inv_insert (t : Tid) (item : WorkQueueRef) (h : Inv offset s) :
    ∃ tls, SimpleTls.insert search s.workQueues (thread offset item) item = some tls ∧
      Inv offset { s with
        workQueues := tls
        registered := item :: s.registered
        pc := Function.update s.pc t (.kWorkQueueStart item) } := by
  obtain ⟨tls, hins, hsorted, hlookup⟩ :=
    SimpleTls.insert_spec search h.sorted (thread offset item) item
  refine ⟨tls, hins, hsorted, fun current i => ?_, fun u => ?_, fun i hi => ?_⟩
  · show tls.map.lookup current = some i ↔ i ∈ item :: s.registered ∧ thread offset i = current
    rw [hlookup, List.mem_cons]
    split
    · rename_i hcur
      -- The address is the one of the new thread, and no other queue has this thread.
      rw [Option.some_inj, hcur]
      constructor
      · intro heq
        rw [← heq]
        exact ⟨.inl rfl, rfl⟩
      · intro ⟨_, hi⟩
        exact (thread_injective hi).symm
    · rename_i hcur
      rw [h.lookup]
      constructor
      · intro ⟨hi, hthread⟩
        exact ⟨.inr hi, hthread⟩
      · intro ⟨hi, hthread⟩
        cases hi with
        | inl heq =>
          rw [heq] at hthread
          exact absurd hthread.symm hcur
        | inr hi => exact ⟨hi, hthread⟩
  · exact fits_update h.fits List.mem_cons_self (fun i hi => List.mem_cons_of_mem item hi) u
  · exact List.mem_cons_of_mem item (h.running i hi)

theorem inv_step {a : Action Tid} (h : Inv offset s) (hs : step search offset s a = some s') :
    Inv offset s' := by
  cases a with
  | start t item =>
    simp only [step] at hs
    split at hs
    · cases hs
      exact ⟨h.sorted, h.lookup, fits_update h.fits trivial fun i hi => hi, h.running⟩
    · cases hs
  | next t =>
    simp only [step] at hs
    split at hs
    · rename_i item hpc
      obtain ⟨tls, hins, hinv⟩ := inv_insert search t item h
      rw [hins] at hs
      cases hs
      exact hinv
    · rename_i item hpc
      cases hs
      -- The thread has registered its queue in the step before.
      have hreg : item ∈ s.registered := by
        have := h.fits t
        rwa [hpc] at this
      refine ⟨h.sorted, h.lookup, fits_update h.fits trivial fun i hi => hi, fun i hi => ?_⟩
      cases List.mem_cons.mp hi with
      | inl heq =>
        rw [heq]
        exact hreg
      | inr hi => exact h.running i hi
    · cases hs
    · cases hs

theorem inv_reachable (h : (system search offset).Reachable s) : Inv offset s :=
  h.invariant inv_init fun _ _ _ hI hs => inv_step hI hs

omit [DecidableEq Tid] in
/-- The current queue is the one that was registered for the running thread. -/
theorem getCurrentWorkq_eq (h : Inv offset s) (current : Nat) :
    getCurrentWorkq search s current = some (s.workQueues.map.lookup current) :=
  SimpleTls.get_eq search h.sorted current

end WorkQueue

namespace SimpleTls

open WorkQueue (WorkQueueRef)

/-- A `SimpleTls` is a finite map, for any search that does what a binary search promises.

- After any calls of `insert` the vector is strictly sorted by the thread and has one entry for
  each thread that was inserted, and `get` returns the data of the last insert of the current
  thread.
- In every run of the program, `get_current_workq` returns the queue whose thread is the current
  one. In a thread that is not the one of a registered queue it returns `None`. -/
theorem refines_map (search : (α : Type) → Search α) :
    (∀ (T : Type) (calls : List (Nat × T)),
      ∃ tls, insertAll (search _) new calls = some tls ∧
        tls.map.Pairwise (fun a b => a.1 < b.1) ∧ (tls.map.map Prod.fst).Nodup ∧
        (∀ thread, thread ∈ tls.map.map Prod.fst ↔ thread ∈ calls.map Prod.fst) ∧
        ∀ current, get (search _) tls current = some (calls.reverse.lookup current)) ∧
    ∀ (Tid : Type) [DecidableEq Tid] (offset : Nat) (s : WorkQueue.St Tid),
      (WorkQueue.system (search _) offset).Reachable s →
      (∀ t, s.pc t ≠ .panicked) ∧
      (∀ item ∈ s.running, item ∈ s.registered) ∧
      (∀ item ∈ s.registered,
        WorkQueue.getCurrentWorkq (search _) s (WorkQueue.thread offset item)
          = some (some item)) ∧
      ∀ current, (∀ item ∈ s.registered, WorkQueue.thread offset item ≠ current) →
        WorkQueue.getCurrentWorkq (search _) s current = some none := by
  refine ⟨fun T calls => ?_, fun Tid _ offset s hr => ?_⟩
  · have hnil : Sorted (new : SimpleTls T).map := Sorted.nil
    obtain ⟨tls, hins, hsorted, hlookup⟩ := lookup_insertAll (search _) calls hnil
    have hlast : ∀ k, tls.map.lookup k = calls.reverse.lookup k := by
      intro k
      rw [hlookup]
      exact Option.or_none
    refine ⟨tls, hins, hsorted, hsorted.nodup, fun thread => ?_, fun current => ?_⟩
    · rw [mem_keys_iff, hlast, ← mem_keys_iff, List.map_reverse, List.mem_reverse]
    · rw [get_eq (search _) hsorted, hlast]
  · have hinv := WorkQueue.inv_reachable hr
    refine ⟨fun t hpc => ?_, hinv.running, fun item hitem => ?_, fun current hnone => ?_⟩
    · have := hinv.fits t
      rwa [hpc] at this
    · rw [WorkQueue.getCurrentWorkq_eq hinv, (hinv.lookup _ item).mpr ⟨hitem, rfl⟩]
    · rw [WorkQueue.getCurrentWorkq_eq hinv]
      cases hlookup : s.workQueues.map.lookup current with
      | none => rfl
      | some item =>
        obtain ⟨hitem, hthread⟩ := (hinv.lookup current item).mp hlookup
        exact absurd hthread (hnone item hitem)

/-- Two threads start the queues at 64 and 128, and the second one is entered first. -/
theorem refines_map_two :
    ∃ s : WorkQueue.St Bool,
      (WorkQueue.system Search.halving 8 : System (WorkQueue.St Bool) _).Reachable s ∧
      s.running = [⟨64⟩, ⟨128⟩] ∧
      WorkQueue.getCurrentWorkq Search.halving s 72 = some (some ⟨64⟩) := by
  have hrun : ∃ s : WorkQueue.St Bool,
      (WorkQueue.system Search.halving 8 : System (WorkQueue.St Bool) _).Reachable s ∧
      decide (s.running = [⟨64⟩, ⟨128⟩] ∧ s.registered = [⟨64⟩, ⟨128⟩]) = true :=
    System.reachable_of_exec
      [.start true ⟨64⟩, .start false ⟨128⟩, .next false, .next true, .next false, .next true] _
      (by decide +kernel)
  obtain ⟨s, hr, hs⟩ := hrun
  obtain ⟨hrunning, hregistered⟩ := of_decide_eq_true hs
  obtain ⟨-, -, hget, -⟩ := (refines_map fun _ => Search.halving).2 Bool 8 s hr
  exact ⟨s, hr, hrunning, hget ⟨64⟩ (by rw [hregistered]; exact List.mem_cons_self)⟩

end SimpleTls

end ZephyrRust
