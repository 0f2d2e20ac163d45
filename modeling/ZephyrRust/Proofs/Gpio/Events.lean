import Mathlib.Order.Fin.Basic
import ZephyrRust.Proofs.Gpio

/-!
# `ZephyrRust.Proofs.Gpio.Events`: the events of each pin

All pins of a controller share the word `fired` and the mask. `exec_round` is one round of the loop
of `callback_handler`, and `exec_handler` is its induction: every round takes one pin out of the
argument, so the loop visits each set bit once (`St.handled` is the state after it).

`recorder` is a controller with the log of its events: the handler records a pin, and a `has_fired`
returns. Beside all actions of `controller`, anybody can call `has_fired` for any pin, and the
kernel can call the handler with any pins. In every run the bit of a pin in `fired` is what the
log says about this pin (`Recorded`).
-/

set_option autoImplicit false

namespace ZephyrRust.Gpio

open ZephyrRust.Lib (System Bits.bit Bits.test Bits.lowest)

variable {W : Type} {s s' : St W}

/-! ## The loop of the handler -/

/-- `s` after a call of the handler with `pins`, which visited the pins `visited` in this order. -/
def St.handled (s : St W) (pins : Pins) (visited : List Pin) : St W :=
  { s with
    fired := s.fired ||| pins
    pinMask := s.pinMask &&& ~~~pins
    interrupt := fun p => if Bits.test pins p then none else s.interrupt p
    wakers := fun p => if Bits.test pins p then none else s.wakers p
    registered := fun p => if Bits.test pins p then false else s.registered p
    wakes := visited.reverse ++ s.wakes
    handler := .idle }

/-- One round of the loop: what the handler does with one pin. -/
def St.visit (s : St W) (pin : Pin) (rest : Pins) : St W :=
  { s with
    fired := s.fired ||| Bits.bit pin
    pinMask := s.pinMask &&& ~~~Bits.bit pin
    interrupt := Function.update s.interrupt pin none
    wakers := Function.update s.wakers pin none
    registered := Function.update s.registered pin false
    wakes := pin :: s.wakes
    handler := .loop rest }

/-- A round is six steps of the handler. -/
theorem exec_round {pins : Pins} (hs : s.handler = .loop pins) (hne : pins ≠ 0#32) :
    (controller W).exec s (List.replicate 6 .handlerNext) =
      some (s.visit (Bits.lowest pins hne) (pins &&& ~~~Bits.bit (Bits.lowest pins hne))) := by
  have hstart : s.handlerNext = some { s with
      handler := .disable (Bits.lowest pins hne) (pins &&& ~~~Bits.bit (Bits.lowest pins hne)) } := by
    simp only [St.handlerNext, hs, dif_neg hne]
  show (s.handlerNext.bind fun s' =>
    (controller W).exec s' (List.replicate 5 .handlerNext)) = _
  rw [hstart]
  rfl

/-- With no pin left, the handler returns. -/
theorem exec_return (hs : s.handler = .loop 0#32) :
    (controller W).exec s (List.replicate 1 .handlerNext) = some { s with handler := .idle } := by
  have hdone : s.handlerNext = some { s with handler := .idle } := by
    simp only [St.handlerNext, hs, dif_pos]
  show (s.handlerNext.bind fun s' => some s') = _
  rw [hdone]
  rfl

/-- A round for a pin, and then a call with the rest of the pins, is a call with all of them. -/
theorem handled_visit {pins : Pins} {pin : Pin} (hpin : Bits.test pins pin = true)
    (visited : List Pin) :
    (s.visit pin (pins &&& ~~~Bits.bit pin)).handled (pins &&& ~~~Bits.bit pin) visited =
      s.handled pins (pin :: visited) := by
  have hfired : (s.fired ||| Bits.bit pin) ||| (pins &&& ~~~Bits.bit pin) = s.fired ||| pins := by
    apply Lib.Bits.ext
    intro p
    by_cases hp : p = pin
    · subst hp
      simp [hpin]
    · simp [hp]
  have hmask : (s.pinMask &&& ~~~Bits.bit pin) &&& ~~~(pins &&& ~~~Bits.bit pin) =
      s.pinMask &&& ~~~pins := by
    apply Lib.Bits.ext
    intro p
    by_cases hp : p = pin
    · subst hp
      simp [hpin]
    · simp [hp]
  have hclear : ∀ {α : Type} (f : Pin → α) (x : α),
      (fun p => if Bits.test (pins &&& ~~~Bits.bit pin) p then x else Function.update f pin x p) =
        fun p => if Bits.test pins p then x else f p := by
    intro α f x
    funext p
    by_cases hp : p = pin
    · subst hp
      simp [hpin]
    · simp [hp]
  simp only [St.handled, St.visit, hfired, hmask, hclear, List.reverse_cons, List.append_assoc,
    List.singleton_append]

/-- A call without a pin changes nothing. -/
theorem handled_nil : s.handled 0#32 [] = { s with handler := .idle } := by
  have hmask : s.pinMask &&& ~~~(0#32) = s.pinMask := by
    apply Lib.Bits.ext
    intro p
    rw [Lib.Bits.test_and_not, Lib.Bits.test_zero, Bool.not_false, Bool.and_true]
  simp only [St.handled, hmask, BitVec.or_zero, Lib.Bits.test_zero, Bool.false_eq_true, if_false,
    List.reverse_nil, List.nil_append]

/-- The loop ends. It has visited each pin of its argument once. -/
theorem exec_handler (pins : Pins) (hs : s.handler = .loop pins) :
    ∃ visited : List Pin, visited.Nodup ∧ (∀ p, p ∈ visited ↔ Bits.test pins p = true) ∧
      (controller W).exec s (List.replicate (6 * visited.length + 1) .handlerNext) =
        some (s.handled pins visited) := by
  -- The induction is on the pins that are left, as a number.
  induction hn : pins.toNat using Nat.strongRecOn generalizing s pins with
  | ind n ih =>
    by_cases hzero : pins = 0#32
    · refine ⟨[], List.nodup_nil, fun p => by simp [hzero], ?_⟩
      rw [hzero] at hs
      show (controller W).exec s (List.replicate 1 .handlerNext) = _
      rw [exec_return hs, hzero, handled_nil]
    · have hpin := Lib.Bits.test_lowest pins hzero
      obtain ⟨visited, hnodup, hmem, hrun⟩ := ih _ (hn ▸ Lib.Bits.toNat_and_not_bit_lt hpin)
        (s := s.visit (Bits.lowest pins hzero) (pins &&& ~~~Bits.bit (Bits.lowest pins hzero)))
        (pins &&& ~~~Bits.bit (Bits.lowest pins hzero)) rfl rfl
      refine ⟨Bits.lowest pins hzero :: visited, ?_, fun p => ?_, ?_⟩
      · -- The rest of the argument is without the pin, so it is not visited again.
        refine List.nodup_cons.mpr ⟨fun hin => ?_, hnodup⟩
        have hgone := (hmem _).mp hin
        simp at hgone
      · rw [List.mem_cons, hmem, Lib.Bits.test_and_not_bit]
        by_cases hp : p = Bits.lowest pins hzero
        · simp [hp]
        · simp [hp]
      · have hsteps : 6 * (visited.length + 1) + 1 = 6 + (6 * visited.length + 1) := by omega
        rw [List.length_cons, hsteps, ← List.replicate_append_replicate, System.exec_append,
          exec_round hs hzero, Option.bind_some, hrun, handled_visit hpin]

/-! ## The log -/

/-- What is recorded of a pin. -/
inductive Event
  /-- The handler has set the bit of the pin. -/
  | handled (p : Pin)
  /-- A `has_fired` of the pin has returned `r`. -/
  | hasFired (p : Pin) (r : Bool)
  deriving DecidableEq

/-- The event of a step of the controller: `fetch_or` of the handler, or a `has_fired` of a
poll. -/
def St.event (s : St W) : Act W → List Event
  | .handlerNext =>
    match s.handler with
    | .fire pin _ => [.handled pin]
    | _ => []
  | .next p =>
    match s.wait p with
    | none => []
    | some w =>
      if w.poll = .early ∨ w.poll = .late then [.hasFired p (s.hasFired p).1] else []
  | _ => []

/-- The calls beside the actions of the controller. -/
inductive Call (W : Type)
  | act (a : Act W)
  /-- A call of the handler, with any pins. -/
  | handler (pins : Pins)
  /-- A call of `has_fired`. -/
  | hasFired (p : Pin)

/-- A controller and its log, the latest event first. -/
def recorder (W : Type) : System (St W × List Event) (Call W) where
  init := ((controller W).init, [])
  step r
    | .act a => ((controller W).step r.1 a).map fun s' => (s', r.1.event a ++ r.2)
    | .handler pins =>
      if r.1.handler = .idle then some ({ r.1 with handler := .loop pins }, r.2) else none
    | .hasFired p => some ((r.1.hasFired p).2, .hasFired p (r.1.hasFired p).1 :: r.2)

/-- The handler has handled the pin since the last `has_fired` of the pin that returned true, or
since the start. -/
def HandledSince (log : List Event) (p : Pin) : Prop :=
  ∃ since before, log = since ++ .handled p :: before ∧ .hasFired p true ∉ since

variable {log : List Event} {p q : Pin}

theorem not_handledSince_nil : ¬HandledSince [] p := by
  intro ⟨since, before, hlog, _⟩
  cases since <;> cases hlog

/-- The pin was handled last, or the last event does not end what was handled before. -/
theorem handledSince_cons (e : Event) :
    HandledSince (e :: log) p ↔
      e = .handled p ∨ e ≠ .hasFired p true ∧ HandledSince log p := by
  constructor
  · intro ⟨since, before, hlog, hno⟩
    -- Either `e` is the `handled` that counts, or it came after that one.
    cases since with
    | nil =>
      cases hlog
      exact .inl rfl
    | cons e' since =>
      cases hlog
      refine .inr ⟨fun he => hno ?_, since, before, rfl, fun hin => hno ?_⟩
      · rw [he]
        exact List.mem_cons_self
      · exact List.mem_cons_of_mem _ hin
  · intro h
    cases h with
    | inl he => exact ⟨[], log, by rw [he, List.nil_append], List.not_mem_nil⟩
    | inr h =>
      obtain ⟨he, since, before, hlog, hno⟩ := h
      refine ⟨e :: since, before, by rw [hlog, List.cons_append], fun hin => ?_⟩
      cases List.mem_cons.mp hin with
      | inl heq => exact he heq.symm
      | inr hin => exact hno hin

/-- The invariant: the bit of a pin is set when the pin was handled and nobody was told so since. -/
def Recorded (s : St W) (log : List Event) : Prop :=
  ∀ p, Bits.test s.fired p = true ↔ HandledSince log p

/-- A step without an event leaves the word. -/
theorem Recorded.quiet (h : Recorded s log) (hf : s'.fired = s.fired) : Recorded s' log := by
  intro p
  rw [hf]
  exact h p

/-- The handler sets the bit of a pin. -/
theorem Recorded.handled {pin : Pin} (h : Recorded s log)
    (hf : s'.fired = s.fired ||| Bits.bit pin) : Recorded s' (.handled pin :: log) := by
  intro p
  rw [hf, handledSince_cons, Lib.Bits.test_or, Lib.Bits.test_bit, ← h p]
  by_cases hp : p = pin
  · simp [hp]
  · simp [hp, Ne.symm hp]

/-- A `has_fired` returns the bit of its pin and clears it. -/
theorem Recorded.hasFired {pin : Pin} (h : Recorded s log)
    (hf : s'.fired = s.fired &&& ~~~Bits.bit pin) :
    Recorded s' (.hasFired pin (s.hasFired pin).1 :: log) := by
  intro p
  rw [hf, handledSince_cons, Lib.Bits.test_and_not_bit, hasFired_fst, ← h p]
  by_cases hp : p = pin
  · subst hp
    simp
  · simp [hp, Ne.symm hp]

/-- A step of the controller changes the word as its event says. -/
theorem Recorded.act {a : Act W} (h : Recorded s log) (hs : (controller W).step s a = some s') :
    Recorded s' (s.event a ++ log) := by
  -- Only `fetch_or` of the handler and the two `has_fired` of a poll touch the word.
  cases a with
  | new p level =>
    simp only [controller, St.new] at hs
    split at hs
    · cases hs
      exact h.quiet rfl
    · cases hs
  | drop p =>
    simp only [controller, St.drop] at hs
    split at hs
    · cases hs
    · split at hs
      · cases hs
        exact h.quiet rfl
      · cases hs
  | poll p waker =>
    simp only [controller, St.poll] at hs
    split at hs
    · cases hs
    · split at hs
      · cases hs
        exact h.quiet rfl
      · cases hs
  | setLevel p level =>
    cases hs
    exact h.quiet rfl
  | fire pins =>
    simp only [controller, St.fire] at hs
    split at hs
    · cases hs
      exact h.quiet rfl
    · cases hs
  | next p =>
    cases PollMove.of_next hs with
    | fastInstall hw hpoll =>
      have hev : s.event (.next p) = [] := by simp [St.event, hw, hpoll]
      rw [hev]
      exact h.quiet (fastInstall_frame (s := s)).2.2.1
    | early hw hpoll | late hw hpoll =>
      have hev : s.event (.next p) = [.hasFired p (s.hasFired p).1] := by
        simp [St.event, hw, hpoll]
      rw [hev]
      exact h.hasFired rfl
    | wakerRegister hw hpoll | maskRead hw hpoll | maskWrite hw hpoll | configure hw hpoll =>
      have hev : s.event (.next p) = [] := by simp [St.event, hw, hpoll]
      rw [hev]
      exact h.quiet rfl
  | handlerNext =>
    cases HandlerMove.of_handlerNext hs with
    | @fire pin rest hh =>
      have hev : s.event .handlerNext = [.handled pin] := by simp only [St.event, hh]
      rw [hev]
      exact h.handled rfl
    | done hh | pin _ hh | disable hh | maskRead hh | maskWrite hh | wake hh =>
      have hev : s.event .handlerNext = [] := by simp only [St.event, hh]
      rw [hev]
      exact h.quiet rfl

/-- In every run, the bits are what the log says. -/
theorem recorded_reachable {r : St W × List Event} (h : (recorder W).Reachable r) :
    Recorded r.1 r.2 := by
  refine h.invariant (I := fun r => Recorded r.1 r.2) (fun p => ?_) fun r a r' hI hs => ?_
  · have hno : ¬HandledSince [] p := not_handledSince_nil
    simpa [recorder, controller] using hno
  · cases a with
    | act a =>
      obtain ⟨s', hs', rfl⟩ := Option.map_eq_some_iff.mp hs
      exact hI.act hs'
    | handler pins =>
      simp only [recorder] at hs
      split at hs
      · -- The call itself records nothing. Its steps do.
        cases hs
        exact hI.quiet rfl
      · cases hs
    | hasFired p =>
      cases hs
      exact hI.hasFired rfl

/-- The events of each pin.

- In every state, a call of the handler with any pins ends. It has visited each of these pins
  once, and `St.handled` is all that it has done.
- In every run, a call of `has_fired` returns whether the handler has handled the pin since the
  last `has_fired` of this pin that returned true.
- A `has_fired` leaves the events of the other pins, and so does each step of the handler. -/
theorem events_of_pin :
    (∀ (s : St W) (pins : Pins), s.handler = .loop pins →
      ∃ visited : List Pin, visited.Nodup ∧ (∀ p, p ∈ visited ↔ Bits.test pins p = true) ∧
        (controller W).exec s (List.replicate (6 * visited.length + 1) .handlerNext) =
          some { s with
            fired := s.fired ||| pins
            pinMask := s.pinMask &&& ~~~pins
            interrupt := fun p => if p ∈ visited then none else s.interrupt p
            wakers := fun p => if p ∈ visited then none else s.wakers p
            registered := fun p => if p ∈ visited then false else s.registered p
            wakes := visited.reverse ++ s.wakes
            handler := .idle }) ∧
    (∀ r, (recorder W).Reachable r → ∀ p, (r.1.hasFired p).1 = true ↔ HandledSince r.2 p) ∧
    (∀ (s : St W) p q, q ≠ p → Bits.test (s.hasFired p).2.fired q = Bits.test s.fired q) ∧
    ∀ (s s' : St W) q, s.handlerNext = some s' → (∀ rest, s.handler ≠ .fire q rest) →
      Bits.test s'.fired q = Bits.test s.fired q := by
  refine ⟨fun s pins hs => ?_, fun r hr p => ?_, fun s p q hq => ?_, fun s s' q hs hq => ?_⟩
  · obtain ⟨visited, hnodup, hmem, hrun⟩ := exec_handler pins hs
    refine ⟨visited, hnodup, hmem, ?_⟩
    simp only [hmem]
    exact hrun
  · rw [hasFired_fst]
    exact recorded_reachable hr p
  · show Bits.test (s.fired &&& ~~~Bits.bit p) q = Bits.test s.fired q
    simp [hq]
  · cases HandlerMove.of_handlerNext hs with
    | @fire pin rest hh =>
      have hne : q ≠ pin := by
        intro heq
        rw [heq] at hq
        exact hq rest hh
      show Bits.test (s.fired ||| Bits.bit pin) q = Bits.test s.fired q
      simp [hne]
    | done | pin | disable | maskRead | maskWrite | wake => rfl

/-- The handler runs for two pins, and then each of them is asked twice. -/
theorem events_of_pin_two :
    (∃ visited : List Pin, visited.Nodup ∧ (∀ p, p ∈ visited ↔ p = 0 ∨ p = 2)) ∧
    ∃ r : St Unit × List Event, (recorder Unit).Reachable r ∧ HandledSince r.2 0 ∧
      ¬HandledSince r.2 2 := by
  constructor
  · obtain ⟨visited, hnodup, hmem, -⟩ := (events_of_pin (W := Unit)).1
      { (controller Unit).init with handler := .loop 5#32 } 5#32 rfl
    have hpins : ∀ p : Pin, Bits.test (5#32) p = true ↔ p = 0 ∨ p = 2 := by decide
    exact ⟨visited, hnodup, fun p => (hmem p).trans (hpins p)⟩
  · obtain ⟨r, hr, hbits⟩ := (recorder Unit).reachable_of_exec
      (.handler 5#32 :: List.replicate 13 (.act .handlerNext) ++ [.hasFired 2, .hasFired 2])
      (fun r => (r.1.hasFired 0).1 && !(r.1.hasFired 2).1) (by decide +kernel)
    simp only [Bool.and_eq_true, Bool.not_eq_true'] at hbits
    have hevents := (events_of_pin (W := Unit)).2.1 r hr
    refine ⟨r, hr, (hevents 0).mp hbits.1, fun hsince => ?_⟩
    rw [(hevents 2).mpr hsince] at hbits
    cases hbits.2

end ZephyrRust.Gpio
