import Mathlib.Data.List.Nodup
import ZephyrRust.Channel
import ZephyrRust.Lib.Count

/-!
# `ZephyrRust.Proofs.Channel`: the bounded channel is a FIFO of its capacity

A slot of the channel is in `free`, in `chan`, in the hand of one sender or in the hand of
one receiver. `Place` names these four places and `At s b p` says that slot `b` is at `p`.
Only four operations move a slot, each one a single slot from one place to the next. So
every slot stays at exactly one place (`Placed`).

Because a slot in `chan` is in no hand, nobody writes to it. Hence the messages leave `chan`
as they were put into it (`Fifo`).
-/

set_option autoImplicit false

namespace ZephyrRust.Channel

open ZephyrRust.Lib (System Counts)
open ZephyrRust.Sys (Queue)

variable {Tid T : Type} {cap : Nat} {s s' : St Tid T cap}

/-! ## The places of the slots -/

/-- The slot in the hand of a sender, between `free.recv` and `chan.send`. -/
def Pc.sending : Pc T cap → Option (Fin cap)
  | .write _ buf => some buf
  | .chanSend _ buf => some buf
  | _ => none

/-- The slot in the hand of a receiver, between `chan.recv` and `free.send`. -/
def Pc.receiving : Pc T cap → Option (Fin cap)
  | .read buf => some buf
  | .freeSend _ buf => some buf
  | _ => none

/-- The places of a slot. -/
inductive Place (Tid : Type)
  | free
  | chan
  | sender (t : Tid)
  | receiver (t : Tid)

/-- Slot `b` is at the place `p`. -/
def At (s : St Tid T cap) (b : Fin cap) : Place Tid → Prop
  | .free => b ∈ s.ch.free
  | .chan => b ∈ s.ch.chan
  | .sender t => (s.pc t).sending = some b
  | .receiver t => (s.pc t).receiving = some b

/-- Every slot is at one place, and in no queue twice. -/
structure Placed (s : St Tid T cap) : Prop where
  place : ∀ b, ∃! p, At s b p
  free : s.ch.free.Nodup
  chan : s.ch.chan.Nodup

/-- A thread that is in no call has no slot in its hands. -/
theorem hands_of_atRest {t : Tid} (h : s.atRest t) :
    (s.pc t).sending = none ∧ (s.pc t).receiving = none := by
  unfold St.atRest at h
  split at h
  · rename_i hpc
    rw [hpc]
    exact ⟨rfl, rfl⟩
  · rename_i hpc
    rw [hpc]
    exact ⟨rfl, rfl⟩
  · cases h

/-- A slot is at no second place. -/
theorem Placed.unique (h : Placed s) {b : Fin cap} {p q : Place Tid} (hp : At s b p)
    (hq : At s b q) : p = q :=
  (h.place b).unique hp hq

/-- A step that moves one slot `b` from the place `p` to the place `q` keeps every slot at
one place. -/
theorem Placed.moved (h : Placed s) {b : Fin cap} {p q : Place Tid} (hp : At s b p)
    (hat : ∀ b' r, At s' b' r ↔ b' = b ∧ r = q ∨ At s b' r ∧ ¬(b' = b ∧ r = p))
    (hfree : s'.ch.free.Nodup) (hchan : s'.ch.chan.Nodup) : Placed s' := by
  refine ⟨fun b' => ?_, hfree, hchan⟩
  by_cases hb : b' = b
  · subst hb
    refine ⟨q, (hat b' q).mpr (Or.inl ⟨rfl, rfl⟩), fun r hr => ?_⟩
    rcases (hat b' r).mp hr with ⟨-, hq⟩ | ⟨hr, hne⟩
    · exact hq
    · -- The slot was at `p`, so it was at no other place.
      exact absurd ⟨rfl, h.unique hr hp⟩ hne
  · obtain ⟨r, hr, hu⟩ := h.place b'
    refine ⟨r, (hat b' r).mpr (Or.inr ⟨hr, fun he => hb he.1⟩), fun r' hr' => ?_⟩
    rcases (hat b' r').mp hr' with ⟨he, -⟩ | ⟨hr', -⟩
    · exact absurd he hb
    · exact hu r' hr'

/-- A step that leaves the queues and the hands keeps every slot at its place. -/
theorem Placed.stay (h : Placed s) (hfree : s'.ch.free = s.ch.free)
    (hchan : s'.ch.chan = s.ch.chan) (hsend : ∀ u, (s'.pc u).sending = (s.pc u).sending)
    (hrecv : ∀ u, (s'.pc u).receiving = (s.pc u).receiving) : Placed s' := by
  have hat : ∀ b p, At s' b p ↔ At s b p := by
    intro b p
    cases p <;> simp only [At, hfree, hchan, hsend, hrecv]
  refine ⟨fun b => ?_, hfree ▸ h.free, hchan ▸ h.chan⟩
  obtain ⟨p, hp, hu⟩ := h.place b
  exact ⟨p, (hat b p).mpr hp, fun q hq => hu q ((hat b q).mp hq)⟩

/-! ## The operations -/

variable [DecidableEq Tid] {t : Tid}

/-- The operations of thread `t`. -/
inductive Move (s : St Tid T cap) (t : Tid) : St Tid T cap → Prop
  | sendCall {msg : T} {timeout : Timeout} (hrest : s.atRest t) :
      Move s t (s.setPc t (.freeRecv msg timeout))
  | recvCall {timeout : Timeout} (hrest : s.atRest t) :
      Move s t (s.setPc t (.chanRecv timeout))
  | freeRecv {msg : T} {timeout : Timeout} {buf : Fin cap} {rest : Queue (Fin cap)}
      (hpc : s.pc t = .freeRecv msg timeout) (hfree : s.ch.free = buf :: rest) :
      Move s t ({ s with ch.free := rest }.setPc t (.write msg buf))
  | sendFail {msg : T} {timeout : Timeout} (hpc : s.pc t = .freeRecv msg timeout)
      (hfree : s.ch.free = []) : Move s t (s.ret t (.sendErr msg))
  | write {msg : T} {buf : Fin cap} (hpc : s.pc t = .write msg buf) :
      Move s t ({ s with ch.slots := Function.update s.ch.slots buf (some msg) }.setPc t
        (.chanSend msg buf))
  | chanSend {msg : T} {buf : Fin cap} (hpc : s.pc t = .chanSend msg buf) :
      Move s t ({ s with
        ch.chan := Queue.send s.ch.chan buf, puts := s.puts ++ [msg] }.ret t .sendOk)
  | chanRecv {timeout : Timeout} {buf : Fin cap} {rest : Queue (Fin cap)}
      (hpc : s.pc t = .chanRecv timeout) (hchan : s.ch.chan = buf :: rest) :
      Move s t ({ s with
          ch.chan := rest
          takes := s.takes ++ [s.ch.slots buf]
          taken := Function.update s.taken t (s.ch.slots buf) }.setPc t (.read buf))
  | recvFail {timeout : Timeout} (hpc : s.pc t = .chanRecv timeout)
      (hchan : s.ch.chan = []) : Move s t (s.ret t .recvErr)
  | read {msg : T} {buf : Fin cap} (hpc : s.pc t = .read buf)
      (hslot : s.ch.slots buf = some msg) : Move s t (s.setPc t (.freeSend msg buf))
  | readFault {buf : Fin cap} (hpc : s.pc t = .read buf) (hslot : s.ch.slots buf = none) :
      Move s t (s.setPc t .fault)
  | freeSend {msg : T} {buf : Fin cap} (hpc : s.pc t = .freeSend msg buf) :
      Move s t ({ s with ch.free := Queue.send s.ch.free buf }.ret t (.recvOk msg))

/-- An operation inside a call is one of the list. -/
theorem Move.of_next (h : s.next t = some s') : Move s t s' := by
  unfold St.next at h
  split at h
  · cases h
  · split at h
    · rename_i hq
      cases h
      exact .freeRecv ‹_› (Queue.recv_eq_some.mp hq)
    · rename_i hq
      split at h
      · cases h
      · cases h
        exact .sendFail ‹_› (Queue.recv_eq_none.mp hq)
  · cases h
    exact .write ‹_›
  · cases h
    exact .chanSend ‹_›
  · split at h
    · rename_i hq
      cases h
      exact .chanRecv ‹_› (Queue.recv_eq_some.mp hq)
    · rename_i hq
      split at h
      · cases h
      · cases h
        exact .recvFail ‹_› (Queue.recv_eq_none.mp hq)
  · split at h
    · cases h
      exact .read ‹_› ‹_›
    · cases h
      exact .readFault ‹_› ‹_›
  · cases h
    exact .freeSend ‹_›
  · cases h
  · cases h

/-- The thread that acts. -/
def Act.tid : Act Tid T → Tid
  | .sendTimeout t _ _ => t
  | .recvTimeout t _ => t
  | .next t => t

/-- Every step of the system is an operation of the thread that acts. -/
theorem Move.of_step {ch : Bounded T cap} {a : Act Tid T}
    (h : (channel Tid ch).step s a = some s') : Move s a.tid s' := by
  cases a with
  | sendTimeout t msg timeout =>
    obtain ⟨hrest, hs⟩ := Option.ite_none_right_eq_some.mp h
    cases hs
    exact .sendCall hrest
  | recvTimeout t timeout =>
    obtain ⟨hrest, hs⟩ := Option.ite_none_right_eq_some.mp h
    cases hs
    exact .recvCall hrest
  | next t => exact .of_next h

/-- Every operation keeps every slot at one place, when a receiver reads a slot that was
written. -/
theorem Placed.move (h : Placed s) (hread : ∀ buf, s.pc t = .read buf → s.ch.slots buf ≠ none)
    (hm : Move s t s') : Placed s' := by
  cases hm with
  | @freeRecv msg timeout buf rest hpc hfree =>
    have hnd := h.free
    rw [hfree, List.nodup_cons] at hnd
    have hp : At s buf .free := by simp [At, hfree]
    refine h.moved (q := .sender t) hp (fun b r => ?_) hnd.2 h.chan
    cases r with
    | free =>
      -- `buf` was in the queue once.
      show b ∈ rest ↔ _
      simp only [At, hfree, List.mem_cons]
      grind
    | chan => simp [At]
    | sender u => by_cases hu : u = t <;> simp [At, hu, hpc, Pc.sending, @eq_comm _ buf]
    | receiver u => by_cases hu : u = t <;> simp [At, hu, hpc, Pc.receiving]
  | @chanSend msg buf hpc =>
    have hp : At s buf (.sender t) := by simp [At, hpc, Pc.sending]
    -- The slot is in the hand of the sender, so it is not in `chan`.
    have hnew : buf ∉ s.ch.chan := fun hc => by cases h.unique hp (q := .chan) hc
    refine h.moved (q := .chan) hp (fun b r => ?_) h.free (Queue.nodup_send h.chan hnew)
    cases r with
    | free => simp [At]
    | chan => simp [At, or_comm]
    | sender u => by_cases hu : u = t <;> simp [At, hu, hpc, Pc.sending, @eq_comm _ buf]
    | receiver u => by_cases hu : u = t <;> simp [At, hu, hpc, Pc.receiving]
  | @chanRecv timeout buf rest hpc hchan =>
    have hnd := h.chan
    rw [hchan, List.nodup_cons] at hnd
    have hp : At s buf .chan := by simp [At, hchan]
    refine h.moved (q := .receiver t) hp (fun b r => ?_) h.free hnd.2
    cases r with
    | free => simp [At]
    | chan =>
      -- `buf` was in the queue once.
      show b ∈ rest ↔ _
      simp only [At, hchan, List.mem_cons]
      grind
    | sender u => by_cases hu : u = t <;> simp [At, hu, hpc, Pc.sending]
    | receiver u => by_cases hu : u = t <;> simp [At, hu, hpc, Pc.receiving, @eq_comm _ buf]
  | @freeSend msg buf hpc =>
    have hp : At s buf (.receiver t) := by simp [At, hpc, Pc.receiving]
    -- The slot is in the hand of the receiver, so it is not in `free`.
    have hnew : buf ∉ s.ch.free := fun hc => by cases h.unique hp (q := .free) hc
    refine h.moved (q := .free) hp (fun b r => ?_) (Queue.nodup_send h.free hnew) h.chan
    cases r with
    | free => simp [At, or_comm]
    | chan => simp [At]
    | sender u => by_cases hu : u = t <;> simp [At, hu, hpc, Pc.sending]
    | receiver u => by_cases hu : u = t <;> simp [At, hu, hpc, Pc.receiving, @eq_comm _ buf]
  | sendCall hrest | recvCall hrest =>
    obtain ⟨hsend, hrecv⟩ := hands_of_atRest hrest
    refine h.stay rfl rfl (fun u => ?_) (fun u => ?_)
    · by_cases hu : u = t
      · rw [hu, hsend]
        simp only [St.setPc, Function.update_self]
        rfl
      · simp [hu]
    · by_cases hu : u = t
      · rw [hu, hrecv]
        simp only [St.setPc, Function.update_self]
        rfl
      · simp [hu]
  | readFault hpc hslot => exact absurd hslot (hread _ hpc)
  | _ =>
    refine h.stay rfl rfl (fun u => ?_) (fun u => ?_) <;> by_cases hu : u = t <;>
      simp_all [Pc.sending, Pc.receiving]

/-! ## The messages -/

/-- The messages leave `chan` in the order and with the value they were put in. -/
structure Fifo (s : St Tid T cap) : Prop where
  /-- What was taken out, followed by what is in `chan`, is what was put in. -/
  order : s.takes ++ s.ch.chan.map s.ch.slots = s.puts.map some
  /-- A sender has written its message before it sends the slot. -/
  written : ∀ u msg buf, s.pc u = .chanSend msg buf → s.ch.slots buf = some msg
  /-- A slot that was taken out of `chan` keeps its message until it is read. -/
  unread : ∀ u buf, s.pc u = .read buf → s.ch.slots buf = s.taken u ∧ s.taken u ≠ none
  /-- A receiver returns the message that it took out of `chan`. -/
  got : ∀ u msg, (∃ buf, s.pc u = .freeSend msg buf) ∨ s.pc u = .returned (.recvOk msg) →
    s.taken u = some msg
  /-- No receiver reads a slot that was never written. -/
  sound : ∀ u, s.pc u ≠ .fault

/-- A write goes to a slot in the hand of its sender, so it changes no slot in `chan` and no
slot in another hand. -/
theorem Fifo.write (h : Fifo s) (hp : Placed s) {msg : T} {buf : Fin cap}
    (hpc : s.pc t = .write msg buf) :
    Fifo ({ s with ch.slots := Function.update s.ch.slots buf (some msg) }.setPc t
      (.chanSend msg buf)) := by
  have hat : At s buf (.sender t) := by simp [At, hpc, Pc.sending]
  have hchan : ∀ b ∈ s.ch.chan, b ≠ buf := by
    rintro b hb rfl
    cases hp.unique hat (q := .chan) hb
  refine ⟨?_, fun u m b hu => ?_, fun u b hu => ?_, fun u m hu => ?_, fun u => ?_⟩
  · show s.takes ++ s.ch.chan.map (Function.update s.ch.slots buf (some msg)) = _
    rw [List.map_congr_left fun b hb => Function.update_of_ne (hchan b hb) _ _]
    exact h.order
  · by_cases hut : u = t
    · subst hut
      simp only [St.setPc, Function.update_self, Pc.chanSend.injEq] at hu
      obtain ⟨rfl, rfl⟩ := hu
      simp
    · simp only [St.setPc, Function.update_of_ne hut] at hu
      have hb : b ≠ buf := by
        rintro rfl
        have := hp.unique hat (q := .sender u) (by simp [At, hu, Pc.sending])
        simp only [Place.sender.injEq] at this
        exact hut this.symm
      simpa [hb] using h.written u m b hu
  · by_cases hut : u = t
    · simp [hut] at hu
    · simp only [St.setPc, Function.update_of_ne hut] at hu
      have hb : b ≠ buf := by
        rintro rfl
        cases hp.unique hat (q := .receiver u) (by simp [At, hu, Pc.receiving])
      simpa [hb] using h.unread u b hu
  · by_cases hut : u = t
    · simp [hut] at hu
    · exact h.got u m (by simpa [hut] using hu)
  · by_cases hut : u = t
    · simp [hut]
    · simpa [hut] using h.sound u

/-- An operation that writes no slot and moves no message keeps `Fifo`. Only its own thread
changes where it is. -/
theorem Fifo.frame (h : Fifo s) {p : Pc T cap} (hpc : s'.pc = Function.update s.pc t p)
    (hslots : s'.ch.slots = s.ch.slots) (htaken : s'.taken = s.taken)
    (horder : s'.takes ++ s'.ch.chan.map s.ch.slots = s'.puts.map some)
    (hwritten : ∀ msg buf, p = .chanSend msg buf → s.ch.slots buf = some msg)
    (hunread : ∀ buf, p ≠ .read buf)
    (hgot : ∀ msg, (∃ buf, p = .freeSend msg buf) ∨ p = .returned (.recvOk msg) →
      s.taken t = some msg)
    (hsound : p ≠ .fault) : Fifo s' := by
  refine ⟨hslots ▸ horder, fun u m b hu => ?_, fun u b hu => ?_, fun u m hu => ?_, fun u => ?_⟩
  all_goals
    rw [hpc] at *
    by_cases hut : u = t
  · subst hut
    rw [Function.update_self] at hu
    exact hslots ▸ hwritten m b hu
  · rw [Function.update_of_ne hut] at hu
    exact hslots ▸ h.written u m b hu
  · subst hut
    rw [Function.update_self] at hu
    exact absurd hu (hunread b)
  · rw [Function.update_of_ne hut] at hu
    exact hslots ▸ htaken ▸ h.unread u b hu
  · subst hut
    rw [Function.update_self] at hu
    exact htaken ▸ hgot m hu
  · rw [Function.update_of_ne hut] at hu
    exact htaken ▸ h.got u m hu
  · subst hut
    rw [Function.update_self]
    exact hsound
  · rw [Function.update_of_ne hut]
    exact h.sound u

omit [DecidableEq Tid] in
/-- The slots in `chan` were written. -/
theorem Fifo.written_chan (h : Fifo s) {buf : Fin cap} (hb : buf ∈ s.ch.chan) :
    s.ch.slots buf ≠ none := by
  have hmem : s.ch.slots buf ∈ s.puts.map some := by
    rw [← h.order]
    exact List.mem_append_right _ (List.mem_map_of_mem hb)
  obtain ⟨msg, -, hmsg⟩ := List.mem_map.mp hmem
  rw [← hmsg]
  exact Option.some_ne_none msg

/-- The oldest message is taken out of `chan`. -/
theorem Fifo.chanRecv (h : Fifo s) {buf : Fin cap} {rest : Queue (Fin cap)}
    (hchan : s.ch.chan = buf :: rest) :
    Fifo ({ s with
        ch.chan := rest
        takes := s.takes ++ [s.ch.slots buf]
        taken := Function.update s.taken t (s.ch.slots buf) }.setPc t (.read buf)) := by
  have hmem : buf ∈ s.ch.chan := by
    rw [hchan]
    exact List.mem_cons_self
  have hwritten := h.written_chan hmem
  refine ⟨?_, fun u m b hu => ?_, fun u b hu => ?_, fun u m hu => ?_, fun u => ?_⟩
  · show s.takes ++ [s.ch.slots buf] ++ rest.map s.ch.slots = s.puts.map some
    rw [← h.order, hchan, List.map_cons, List.append_assoc, List.singleton_append]
  all_goals by_cases hut : u = t
  · simp [hut] at hu
  · exact h.written u m b (by simpa [hut] using hu)
  · subst hut
    simp only [St.setPc, Function.update_self, Pc.read.injEq] at hu
    subst hu
    simpa using hwritten
  · simpa [hut] using h.unread u b (by simpa [hut] using hu)
  · simp [hut] at hu
  · simpa [hut] using h.got u m (by simpa [hut] using hu)
  · simp [hut]
  · simpa [hut] using h.sound u

/-- Every operation keeps the messages in order. -/
theorem Fifo.move (h : Fifo s) (hp : Placed s) (hm : Move s t s') : Fifo s' := by
  cases hm with
  | write hpc => exact h.write hp hpc
  | chanRecv hpc hchan => exact h.chanRecv hchan
  | @chanSend msg buf hpc =>
    refine h.frame rfl rfl rfl ?_ (by simp) (by simp) (by simp) (by simp)
    show s.takes ++ (s.ch.chan ++ [buf]).map s.ch.slots = (s.puts ++ [msg]).map some
    rw [List.map_append, List.map_append, ← h.order, List.append_assoc, List.map_singleton,
      h.written t msg buf hpc, List.map_singleton]
  | @read msg buf hpc hslot =>
    refine h.frame rfl rfl rfl h.order (by simp) (by simp) ?_ (by simp)
    rintro m (⟨b, hb⟩ | hr)
    · cases hb
      rw [← (h.unread t buf hpc).1, hslot]
    · cases hr
  | readFault hpc hslot =>
    obtain ⟨heq, hne⟩ := h.unread t _ hpc
    exact absurd (heq.symm.trans hslot) hne
  | @freeSend msg buf hpc =>
    refine h.frame rfl rfl rfl h.order (by simp) (by simp) ?_ (by simp)
    rintro m (⟨b, hb⟩ | hr)
    · cases hb
    · cases hr
      exact h.got t msg (Or.inl ⟨buf, hpc⟩)
  | _ => exact h.frame rfl rfl rfl h.order (by simp) (by simp) (by simp) (by simp)

/-! ## The capacity -/

/-- The thread has a slot in its hand. -/
def Pc.inHand (p : Pc T cap) : Bool := p.sending.isSome || p.receiving.isSome

/-- The slots in the two queues and in the hands of the threads are `cap` many. -/
def Counted (s : St Tid T cap) : Prop :=
  ∃ n, Counts s.pc Pc.inHand n ∧ s.ch.free.length + s.ch.chan.length + n = cap

/-- A step of thread `t` that moves a slot between a queue and its hand, or none at all. -/
theorem Counted.update (h : Counted s) {p : Pc T cap} (hpc : s'.pc = Function.update s.pc t p)
    (hlen : s'.ch.free.length + s'.ch.chan.length + p.inHand.toNat
      = s.ch.free.length + s.ch.chan.length + (s.pc t).inHand.toNat) : Counted s' := by
  obtain ⟨n, hn, hcap⟩ := h
  have hle := hn.toNat_le t
  refine ⟨n + p.inHand.toNat - (s.pc t).inHand.toNat, ?_, by omega⟩
  rw [hpc]
  exact hn.update (by omega)

/-- Every operation keeps the number of slots. -/
theorem Counted.move (h : Counted s) (hread : ∀ buf, s.pc t = .read buf → s.ch.slots buf ≠ none)
    (hm : Move s t s') : Counted s' := by
  cases hm with
  | sendCall hrest | recvCall hrest =>
    refine h.update rfl ?_
    rw [Pc.inHand, Pc.inHand, (hands_of_atRest hrest).1, (hands_of_atRest hrest).2]
    rfl
  | freeRecv hpc hfree =>
    refine h.update rfl ?_
    simp only [St.setPc, hpc, hfree, List.length_cons]
    show _ + _ + 1 = _ + 1 + _ + 0
    omega
  | chanRecv hpc hchan =>
    refine h.update rfl ?_
    simp only [St.setPc, hpc, hchan, List.length_cons]
    show _ + _ + 1 = _ + (_ + 1) + 0
    omega
  | chanSend hpc | freeSend hpc =>
    refine h.update rfl ?_
    simp only [St.ret, St.setPc, hpc, Queue.send, List.length_append, List.length_singleton]
    show _ + 0 = _ + 1
    omega
  | sendFail hpc | write hpc | recvFail hpc | read hpc =>
    refine h.update rfl ?_
    rw [hpc]
    rfl
  | readFault hpc hslot => exact absurd hslot (hread _ hpc)

/-! ## Whole runs -/

/-- The loop of `Bounded::new` leaves the slots in their order. -/
theorem free_new : (Bounded.new T cap).free = List.finRange cap := by
  have hfold : ∀ (l q : List (Fin cap)), l.foldl Queue.send q = q ++ l := by
    intro l
    induction l with
    | nil => intro q; simp
    | cons b l ih =>
      intro q
      rw [List.foldl_cons, ih, Queue.send, List.append_assoc, List.singleton_append]
  exact hfold (List.finRange cap) []

/-- The invariant of the channel. -/
structure Inv (s : St Tid T cap) : Prop where
  placed : Placed s
  fifo : Fifo s
  counted : Counted s

/-- `bounded` gives a new channel when it does not panic. -/
theorem bounded_eq {ch : Bounded T cap} (hch : bounded T cap = some ch) :
    ch = Bounded.new T cap := by
  unfold bounded at hch
  split at hch
  · cases hch
  · exact (Option.some.inj hch).symm

/-- A channel from `bounded` starts with all slots in `free`. -/
theorem inv_init {ch : Bounded T cap} (hch : bounded T cap = some ch) :
    Inv (channel Tid ch).init := by
  cases bounded_eq hch
  refine ⟨⟨fun b => ?_, ?_, ?_⟩, ?_, ⟨0, .zero fun u => rfl, ?_⟩⟩
  · refine ⟨.free, ?_, fun p hp => ?_⟩
    · show b ∈ (Bounded.new T cap).free
      rw [free_new]
      exact List.mem_finRange b
    · cases p <;> simp_all [At, channel, Bounded.new, Queue.new, Pc.sending, Pc.receiving]
  · show (Bounded.new T cap).free.Nodup
    rw [free_new]
    exact List.nodup_finRange cap
  · exact List.nodup_nil
  · constructor <;> simp [channel, Bounded.new, Queue.new]
  · show (Bounded.new T cap).free.length + 0 + 0 = cap
    simp [free_new]

/-- Every operation keeps the invariant. -/
theorem Inv.move (h : Inv s) (hm : Move s t s') : Inv s' := by
  have hread : ∀ buf, s.pc t = .read buf → s.ch.slots buf ≠ none := by
    intro buf hpc
    obtain ⟨heq, hne⟩ := h.fifo.unread t buf hpc
    rwa [heq]
  exact ⟨h.placed.move hread hm, h.fifo.move h.placed hm, h.counted.move hread hm⟩

/-- The invariant holds in every reachable state. -/
theorem Inv.of_reachable {ch : Bounded T cap} (hch : bounded T cap = some ch)
    (h : (channel Tid ch).Reachable s) : Inv s := by
  exact h.invariant (inv_init hch) fun s a s' hi hs => hi.move (Move.of_step hs)

/-- Conservation, order and capacity of a bounded channel, in every state of every run of
any number of threads.

* Every slot is at exactly one place, and in no queue twice.
* What was taken out of `chan`, followed by what is in `chan`, is what was put in. A slot that
  was taken out keeps its message until it is read, and a receive returns the message it took.
* The slots in `free`, in `chan` and in the hands of threads are `cap` many. So at most `cap`
  messages are in transit. -/
theorem bounded_channel_conserves {ch : Bounded T cap} (hch : bounded T cap = some ch)
    (h : (channel Tid ch).Reachable s) :
    ((∀ b, ∃! p, At s b p) ∧ s.ch.free.Nodup ∧ s.ch.chan.Nodup) ∧
    s.takes ++ s.ch.chan.map s.ch.slots = s.puts.map some ∧
    (∀ t msg buf, s.pc t = .chanSend msg buf → s.ch.slots buf = some msg) ∧
    (∀ t buf, s.pc t = .read buf → s.ch.slots buf = s.taken t ∧ s.taken t ≠ none) ∧
    (∀ t msg, s.pc t = .returned (.recvOk msg) → s.taken t = some msg) ∧
    (∀ t, s.pc t ≠ .fault) ∧
    ∃ hands : Finset Tid, (∀ t, t ∈ hands ↔ (s.pc t).inHand) ∧
      s.ch.free.length + s.ch.chan.length + hands.card = cap := by
  obtain ⟨hp, hf, n, ⟨hands, hmem, rfl⟩, hcap⟩ := Inv.of_reachable hch h
  exact ⟨⟨hp.place, hp.free, hp.chan⟩, hf.order, hf.written, hf.unread,
    fun t msg ht => hf.got t msg (Or.inr ht), hf.sound, hands, hmem, hcap⟩

/-- On a channel with two slots, one message was received and a second one is in `chan`. -/
theorem bounded_channel_conserves_two :
    ∃ s, (channel (Fin 2) (Bounded.new Nat 2)).Reachable s ∧ s.puts = [3, 4] ∧
      s.takes = [some 3] ∧ s.takes ++ s.ch.chan.map s.ch.slots = s.puts.map some := by
  obtain ⟨s, hr, hs⟩ := (channel (Fin 2) (Bounded.new Nat 2)).reachable_of_exec
    ([.sendTimeout 0 3 .forever] ++ List.replicate 3 (.next 0) ++
      [.sendTimeout 0 4 .noWait, .recvTimeout 1 .forever] ++ List.replicate 3 (.next 0) ++
      List.replicate 3 (.next 1))
    (fun s => decide (s.puts = [3, 4]) && decide (s.takes = [some 3])) rfl
  simp only [Bool.and_eq_true, decide_eq_true_eq] at hs
  exact ⟨s, hr, hs.1, hs.2, (bounded_channel_conserves rfl hr).2.1⟩

end ZephyrRust.Channel
