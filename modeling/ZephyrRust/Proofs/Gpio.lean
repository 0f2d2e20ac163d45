import ZephyrRust.Gpio

/-!
# `ZephyrRust.Proofs.Gpio`: what a wait reports, and what the mask forgets

Two claims of `gpio.rs` about its races, with the condition that each of them needs.

A wait reports the bit in `fired`. The bit, the interrupt and the handler outlive the wait that
made use of them. So a wait that begins its first poll on a pin that is not `Quiet` can report an
event of an earlier wait. `Fresh` is the invariant of a pin whose waits all begin on a quiet pin:
whatever sets its bit is an event of the present wait.

The mask is updated by a read and a write. An update that has read the mask writes back what it has
read for all other pins. So a `register` that writes in between is lost. `Masked` is the invariant
of the runs in which this does not happen: every update that has read the mask has read the bits of
all registered pins.
-/

set_option autoImplicit false

namespace ZephyrRust.Gpio

open ZephyrRust.Lib (System Bits.bit Bits.test Bits.lowest)

variable {W : Type} {s s' : St W}

/-! ## Operations -/

/-- The operations of `GpioWait::poll`. -/
inductive PollMove (s : St W) (p : Pin) : St W → Prop
  | fastInstall {w : Wait W} (hw : s.wait p = some w) (hpoll : w.poll = .fastInstall) :
      PollMove s p (s.fastInstall.setWait p { w with poll := .early })
  | early {w : Wait W} (hw : s.wait p = some w) (hpoll : w.poll = .early) :
      PollMove s p (s.checkFired p w .wakerRegister)
  | wakerRegister {w : Wait W} (hw : s.wait p = some w) (hpoll : w.poll = .wakerRegister) :
      PollMove s p ({ s with wakers := Function.update s.wakers p w.waker }.setWait p
        { w with poll := .maskRead })
  | maskRead {w : Wait W} (hw : s.wait p = some w) (hpoll : w.poll = .maskRead) :
      PollMove s p (s.setWait p { w with poll := .maskWrite s.pinMask })
  | maskWrite {w : Wait W} {mask : Pins} (hw : s.wait p = some w)
      (hpoll : w.poll = .maskWrite mask) :
      PollMove s p ({ s with
        pinMask := mask ||| Bits.bit p
        registered := Function.update s.registered p true }.setWait p
          { w with poll := .configure })
  | configure {w : Wait W} (hw : s.wait p = some w) (hpoll : w.poll = .configure) :
      PollMove s p ({ s with
        interrupt := Function.update s.interrupt p (some w.level) }.setWait p
          { w with poll := .late })
  | late {w : Wait W} (hw : s.wait p = some w) (hpoll : w.poll = .late) :
      PollMove s p (s.checkFired p w .pending)

theorem PollMove.of_next {p : Pin} (hs : s.next p = some s') : PollMove s p s' := by
  cases hw : s.wait p with
  | none =>
    simp only [St.next, hw] at hs
    cases hs
  | some w =>
    cases hpoll : w.poll
    all_goals
      simp only [St.next, hw, hpoll] at hs
      cases hs
    · exact .fastInstall hw hpoll
    · exact .early hw hpoll
    · exact .wakerRegister hw hpoll
    · exact .maskRead hw hpoll
    · exact .maskWrite hw hpoll
    · exact .configure hw hpoll
    · exact .late hw hpoll

/-- The operations of `callback_handler`. -/
inductive HandlerMove (s : St W) : St W → Prop
  | done (hh : s.handler = .loop 0#32) : HandlerMove s { s with handler := .idle }
  | pin {pins : Pins} (hne : pins ≠ 0#32) (hh : s.handler = .loop pins) :
      HandlerMove s { s with
        handler := .disable (Bits.lowest pins hne) (pins &&& ~~~Bits.bit (Bits.lowest pins hne)) }
  | disable {pin : Pin} {rest : Pins} (hh : s.handler = .disable pin rest) :
      HandlerMove s { s with
        interrupt := Function.update s.interrupt pin none
        handler := .maskRead pin rest }
  | maskRead {pin : Pin} {rest : Pins} (hh : s.handler = .maskRead pin rest) :
      HandlerMove s { s with handler := .maskWrite pin rest s.pinMask }
  | maskWrite {pin : Pin} {rest mask : Pins} (hh : s.handler = .maskWrite pin rest mask) :
      HandlerMove s { s with
        pinMask := mask &&& ~~~Bits.bit pin
        registered := Function.update s.registered pin false
        handler := .fire pin rest }
  | fire {pin : Pin} {rest : Pins} (hh : s.handler = .fire pin rest) :
      HandlerMove s { s with fired := s.fired ||| Bits.bit pin, handler := .wake pin rest }
  | wake {pin : Pin} {rest : Pins} (hh : s.handler = .wake pin rest) :
      HandlerMove s { s with
        wakers := Function.update s.wakers pin none
        wakes := pin :: s.wakes
        handler := .loop rest }

theorem HandlerMove.of_handlerNext (hs : s.handlerNext = some s') : HandlerMove s s' := by
  cases hh : s.handler with
  | idle =>
    simp only [St.handlerNext, hh] at hs
    cases hs
  | loop pins =>
    simp only [St.handlerNext, hh] at hs
    split at hs
    · rename_i hzero
      cases hs
      exact .done (hzero ▸ hh)
    · rename_i hne
      cases hs
      exact .pin hne hh
  | disable pin rest =>
    simp only [St.handlerNext, hh] at hs
    cases hs
    exact .disable hh
  | maskRead pin rest =>
    simp only [St.handlerNext, hh] at hs
    cases hs
    exact .maskRead hh
  | maskWrite pin rest mask =>
    simp only [St.handlerNext, hh] at hs
    cases hs
    exact .maskWrite hh
  | fire pin rest =>
    simp only [St.handlerNext, hh] at hs
    cases hs
    exact .fire hh
  | wake pin rest =>
    simp only [St.handlerNext, hh] at hs
    cases hs
    exact .wake hh

/-! ## The events of a wait -/

/-- The pins whose bit in `fired` the handler is still going to set. -/
def Handler.toFire : Handler → Pins
  | .idle => 0#32
  | .loop pins => pins
  | .disable pin rest => rest ||| Bits.bit pin
  | .maskRead pin rest => rest ||| Bits.bit pin
  | .maskWrite pin rest _ => rest ||| Bits.bit pin
  | .fire pin rest => rest ||| Bits.bit pin
  | .wake _ rest => rest

/-- The pin is quiet for a wait for `level`. No event is recorded or about to be recorded, and its
interrupt is not configured for the other level. -/
def QuietPin (s : St W) (p : Pin) (level : Level) : Prop :=
  Bits.test s.fired p = false ∧ Bits.test s.handler.toFire p = false ∧
    (s.interrupt p = none ∨ s.interrupt p = some level)

/-- The first poll of a wait begins on a quiet pin. -/
def Quiet (s : St W) : Act W → Prop
  | .poll p _ => ∀ w ∈ s.wait p, w.poll = .created → QuietPin s p w.level
  | _ => True

instance (s : St W) (p : Pin) (level : Level) : Decidable (QuietPin s p level) :=
  inferInstanceAs (Decidable (_ ∧ _ ∧ (_ ∨ _)))

instance (s : St W) (a : Act W) : Decidable (Quiet s a) :=
  match a with
  | .poll p _ =>
    inferInstanceAs
      (Decidable (∀ w ∈ s.wait p, w.poll = .created → QuietPin s p w.level))
  | .new _ _ => isTrue trivial
  | .drop _ => isTrue trivial
  | .next _ => isTrue trivial
  | .setLevel _ _ => isTrue trivial
  | .fire _ => isTrue trivial
  | .handlerNext => isTrue trivial

/-- The invariant of one pin, with its wait `w`, its interrupt `mode`, its bit `fired`, and
whether the handler is going to set that bit. Any event is one of the present wait. -/
structure Fresh (w : Wait W) (mode : Option Level) (fired toFire : Bool) : Prop where
  mode : mode = none ∨ mode = some w.level
  event : fired = true ∨ toFire = true → w.event = true
  ready : w.poll = .ready → w.event = true

/-- Every wait that was polled is fresh. -/
def AllFresh (s : St W) : Prop :=
  ∀ p w, s.wait p = some w → w.poll ≠ .created →
    Fresh w (s.interrupt p) (Bits.test s.fired p) (Bits.test s.handler.toFire p)

/-- A wait stays fresh when an interrupt is disabled, bits are cleared, or the handler sets a bit
that it was going to set. -/
theorem Fresh.mono {w : Wait W} {mode mode' : Option Level} {f f' t t' : Bool}
    (h : Fresh w mode f t) (hm : mode' = mode ∨ mode' = none)
    (hb : f' = true ∨ t' = true → f = true ∨ t = true) : Fresh w mode' f' t' := by
  refine ⟨?_, fun he => h.event (hb he), h.ready⟩
  rcases hm with hm | hm
  · rw [hm]
    exact h.mode
  · exact Or.inl hm

/-- A step that leaves all waits as they are. -/
theorem AllFresh.frame (h : AllFresh s) (hw : s'.wait = s.wait)
    (hm : ∀ p, s'.interrupt p = s.interrupt p ∨ s'.interrupt p = none)
    (hb : ∀ p, Bits.test s'.fired p = true ∨ Bits.test s'.handler.toFire p = true →
      Bits.test s.fired p = true ∨ Bits.test s.handler.toFire p = true) : AllFresh s' := by
  intro p w hp hpoll
  rw [hw] at hp
  exact (h p w hp hpoll).mono (hm p) (hb p)

/-- A step of the wait on the pin `p` that leaves the handler and the bits of the other pins as
they are. -/
theorem AllFresh.setWait (h : AllFresh s) {p : Pin} {w : Wait W}
    (hw : s'.wait = Function.update s.wait p (some w))
    (hm : ∀ q, q ≠ p → s'.interrupt q = s.interrupt q)
    (hf : ∀ q, q ≠ p → Bits.test s'.fired q = Bits.test s.fired q)
    (hh : s'.handler = s.handler)
    (hp : w.poll ≠ .created →
      Fresh w (s'.interrupt p) (Bits.test s'.fired p) (Bits.test s'.handler.toFire p)) :
    AllFresh s' := by
  intro q w' hq hpoll
  rw [hw] at hq
  by_cases hqp : q = p
  · subst hqp
    rw [Function.update_self] at hq
    cases hq
    exact hp hpoll
  · rw [Function.update_of_ne hqp] at hq
    rw [hm q hqp, hf q hqp, hh]
    exact h q w' hq hpoll

/-- `has_fired` returns the bit of its pin. -/
theorem hasFired_fst (p : Pin) : (s.hasFired p).1 = Bits.test s.fired p := by
  show decide (s.fired &&& Bits.bit p ≠ 0#32) = Bits.test s.fired p
  rw [Bool.eq_iff_iff, decide_eq_true_iff]
  exact Lib.Bits.and_bit_ne_zero s.fired p

/-- A `has_fired` of a wait that was polled. It is ready only if the bit was set. -/
theorem AllFresh.checkFired (h : AllFresh s) {p : Pin} {w : Wait W} {next : Poll}
    (hw : s.wait p = some w) (hpoll : w.poll ≠ .created) (hnext : next ≠ .ready) :
    AllFresh (s.checkFired p w next) := by
  have hfresh := h p w hw hpoll
  refine h.setWait (p := p) rfl (fun q _ => rfl) (fun q hq => ?_) rfl fun _ => ⟨?_, ?_, ?_⟩
  · show Bits.test (s.fired &&& ~~~Bits.bit p) q = Bits.test s.fired q
    simp [hq]
  · exact hfresh.mode
  · rintro (hf | ht)
    · have hclear : Bits.test (s.fired &&& ~~~Bits.bit p) p = true := hf
      simp at hclear
    · exact hfresh.event (Or.inr ht)
  · intro hready
    have hfired : Bits.test s.fired p = true := by
      rw [← hasFired_fst]
      by_contra hno
      have hnot : (if (s.hasFired p).1 then Poll.ready else next) = .ready := hready
      rw [if_neg hno] at hnot
      exact hnext hnot
    exact hfresh.event (Or.inl hfired)

/-- A step of the wait on `p` to another place of its poll. -/
theorem AllFresh.goto (h : AllFresh s) {p : Pin} {w : Wait W} {n : Poll}
    (hw : s.wait p = some w) (hpoll : w.poll ≠ .created) (hready : n ≠ .ready)
    (hs : s'.wait = Function.update s.wait p (some { w with poll := n }))
    (hm : s'.interrupt = s.interrupt ∨
      s'.interrupt = Function.update s.interrupt p (some w.level))
    (hf : s'.fired = s.fired) (hh : s'.handler = s.handler) : AllFresh s' := by
  have hfresh := h p w hw hpoll
  refine h.setWait hs (fun q hq => ?_) (fun q _ => by rw [hf]) hh fun _ => ⟨?_, ?_, ?_⟩
  · rcases hm with hm | hm
    · rw [hm]
    · rw [hm, Function.update_of_ne hq]
  · rcases hm with hm | hm
    · rw [hm]
      exact hfresh.mode
    · rw [hm, Function.update_self]
      exact Or.inr rfl
  · rw [hf, hh]
    exact hfresh.event
  · exact fun hr => absurd hr hready

/-- `fast_install` touches the mask only. -/
theorem fastInstall_frame : s.fastInstall.wait = s.wait ∧
    s.fastInstall.interrupt = s.interrupt ∧ s.fastInstall.fired = s.fired ∧
    s.fastInstall.handler = s.handler := by
  unfold St.fastInstall
  split
  · exact ⟨rfl, rfl, rfl, rfl⟩
  · exact ⟨rfl, rfl, rfl, rfl⟩

/-- A poll keeps the waits fresh. -/
theorem AllFresh.next (h : AllFresh s) {p : Pin} (hs : s.next p = some s') : AllFresh s' := by
  cases PollMove.of_next hs with
  | fastInstall hw hpoll =>
    obtain ⟨hwait, hint, hfired, hhandler⟩ := fastInstall_frame (s := s)
    refine h.goto (n := .early) hw (by simp [hpoll]) (by simp) ?_ (Or.inl hint) hfired hhandler
    show Function.update s.fastInstall.wait p _ = _
    rw [hwait]
  | early hw hpoll => exact h.checkFired hw (by simp [hpoll]) (by simp)
  | wakerRegister hw hpoll =>
    exact h.goto hw (by simp [hpoll]) (by simp) rfl (Or.inl rfl) rfl rfl
  | maskRead hw hpoll => exact h.goto hw (by simp [hpoll]) (by simp) rfl (Or.inl rfl) rfl rfl
  | maskWrite hw hpoll => exact h.goto hw (by simp [hpoll]) (by simp) rfl (Or.inl rfl) rfl rfl
  | configure hw hpoll => exact h.goto hw (by simp [hpoll]) (by simp) rfl (Or.inr rfl) rfl rfl
  | late hw hpoll => exact h.checkFired hw (by simp [hpoll]) (by simp)

/-- An interrupt that fires is configured for the level of the present wait, so it is an event of
that wait. -/
theorem AllFresh.fire (h : AllFresh s) {pins : Pins} (hs : s.fire pins = some s') :
    AllFresh s' := by
  unfold St.fire at hs
  split at hs
  · rename_i hg
    obtain ⟨hidle, -, -, hpins⟩ := hg
    cases hs
    intro p w hp hpoll
    simp only at hp
    cases ht : Bits.test pins p with
    | false =>
      rw [ht] at hp
      refine (h p w hp hpoll).mono (Or.inl rfl) fun hb => ?_
      rcases hb with hf | hto
      · exact Or.inl hf
      · have hto' : Bits.test pins p = true := hto
        rw [ht] at hto'
        cases hto'
    | true =>
      rw [ht, if_pos rfl] at hp
      obtain ⟨w₀, hw₀, rfl⟩ := Option.map_eq_some_iff.mp hp
      have hmode := (hpins p ht).2
      have hpoll₀ : w₀.poll ≠ .created := by
        intro hc
        unfold Wait.fire at hpoll
        split at hpoll
        · exact hpoll hc
        · exact hpoll hc
      -- The interrupt is not disabled, so it is configured for the level of the wait.
      have hlevel : s.interrupt p = some w₀.level := by
        rcases (h p w₀ hw₀ hpoll₀).mode with hn | hl
        · rw [hmode] at hn
          cases hn
        · exact hl
      rw [Wait.fire, if_pos ⟨hpoll₀, hlevel⟩]
      exact ⟨Or.inr hlevel, fun _ => rfl, fun _ => rfl⟩
  · cases hs

/-- The handler only sets bits that it was going to set. -/
theorem AllFresh.handlerNext (h : AllFresh s) (hs : s.handlerNext = some s') : AllFresh s' := by
  cases HandlerMove.of_handlerNext hs with
  | done hh =>
    refine h.frame rfl (fun _ => Or.inl rfl) fun p hb => hb.imp id fun ht => ?_
    have ht' : Bits.test (0#32) p = true := ht
    simp at ht'
  | @pin pins hne hh =>
    refine h.frame rfl (fun _ => Or.inl rfl) fun p hb => hb.imp id fun ht => ?_
    -- The pin of this round is one of the pins.
    rw [hh]
    have ht' : Bits.test ((pins &&& ~~~Bits.bit (Bits.lowest pins hne)) |||
        Bits.bit (Bits.lowest pins hne)) p = true := ht
    by_cases hp : p = Bits.lowest pins hne
    · rw [hp]
      exact Lib.Bits.test_lowest pins hne
    · show Bits.test pins p = true
      simpa [hp] using ht'
  | @disable pin rest hh =>
    refine h.frame rfl (fun p => ?_) fun p hb => by rwa [hh]
    by_cases hp : p = pin
    · subst hp
      exact Or.inr (Function.update_self p none s.interrupt)
    · exact Or.inl (Function.update_of_ne hp none s.interrupt)
  | maskRead hh => exact h.frame rfl (fun _ => Or.inl rfl) fun p hb => by rwa [hh]
  | maskWrite hh => exact h.frame rfl (fun _ => Or.inl rfl) fun p hb => by rwa [hh]
  | @fire pin rest hh =>
    refine h.frame rfl (fun _ => Or.inl rfl) fun p hb => ?_
    rw [hh]
    have hb' : Bits.test (s.fired ||| Bits.bit pin) p = true ∨ Bits.test rest p = true := hb
    show Bits.test s.fired p = true ∨ Bits.test (rest ||| Bits.bit pin) p = true
    rw [Lib.Bits.test_or] at hb' ⊢
    simp only [Bool.or_eq_true] at hb' ⊢
    rcases hb' with (hf | hbit) | hrest
    · exact Or.inl hf
    · exact Or.inr (Or.inr hbit)
    · exact Or.inr (Or.inl hrest)
  | wake hh => exact h.frame rfl (fun _ => Or.inl rfl) fun p hb => by rwa [hh]

/-- Every step keeps the waits fresh when first polls begin on quiet pins. -/
theorem AllFresh.step (h : AllFresh s) {a : Act W} (hq : Quiet s a)
    (hs : (controller W).step s a = some s') : AllFresh s' := by
  cases a with
  | new p level =>
    simp only [controller, St.new] at hs
    split at hs
    · cases hs
      exact h.setWait rfl (fun _ _ => rfl) (fun _ _ => rfl) rfl fun hc => absurd rfl hc
    · cases hs
  | drop p =>
    simp only [controller, St.drop] at hs
    split at hs
    · cases hs
    · split at hs
      · cases hs
        intro q w hw hpoll
        by_cases hqp : q = p
        · subst hqp
          simp only [Function.update_self] at hw
          cases hw
        · simp only [Function.update_of_ne hqp] at hw
          exact h q w hw hpoll
      · cases hs
  | poll p waker =>
    simp only [controller, St.poll] at hs
    split at hs
    · cases hs
    · rename_i w hw
      split at hs
      · cases hs
        refine h.setWait rfl (fun _ _ => rfl) (fun _ _ => rfl) rfl fun _ => ?_
        by_cases hc : w.poll = .created
        · -- The first poll: there is no event yet.
          obtain ⟨hfired, hto, hmode⟩ := hq w hw hc
          refine ⟨hmode, fun hb => ?_, fun hr => by cases hr⟩
          rcases hb with hb | hb
          · exact absurd (hfired.symm.trans hb) Bool.false_ne_true
          · exact absurd (hto.symm.trans hb) Bool.false_ne_true
        · have hfresh := h p w hw hc
          exact ⟨hfresh.mode, hfresh.event, fun hr => by cases hr⟩
      · cases hs
  | next p => exact h.next hs
  | setLevel p level =>
    cases hs
    exact h
  | fire pins => exact h.fire hs
  | handlerNext => exact h.handlerNext hs

/-- A wait reports its own event, in every state of every run whose waits all begin their first
poll on a quiet pin: the wait is ready only if the interrupt, configured for its level, has fired on
its pin since its first poll began. -/
theorem ready_only_for_own_event (h : (controller W).ReachableBy Quiet s) {p : Pin} {w : Wait W}
    (hw : s.wait p = some w) (hready : w.poll = .ready) : w.event = true := by
  have hfresh : AllFresh s := by
    refine h.invariant (I := AllFresh) (fun p w hw => (nomatch hw)) ?_
    intro s a s' hi hq hs
    exact hi.step hq hs
  exact (hfresh p w hw (by simp [hready])).ready hready

/-- The wait on the pin `p` is for `level`, it is ready, and `event` says whether it has had its
event. -/
def readyFor (p : Pin) (level : Level) (event : Bool) (s : St W) : Bool :=
  (s.wait p).any fun w =>
    decide (w.level = level) && decide (w.poll = .ready) && decide (w.event = event)

/-- What `readyFor` decides. -/
theorem readyFor_iff {p : Pin} {level : Level} {event : Bool} :
    readyFor p level event s = true ↔
      ∃ w, s.wait p = some w ∧ w.level = level ∧ w.poll = .ready ∧ w.event = event := by
  simp only [readyFor, Option.any_eq_true, Bool.and_eq_true, decide_eq_true_eq, and_assoc]

/-- The operations of one poll that returns `Poll::Pending`. -/
def pollPending (p : Pin) : List (Act Unit) :=
  .poll p () :: List.replicate 7 (.next p)

/-- The level of the pin changes, and the handler runs for this pin to its end. -/
def changeLevel (p : Pin) (level : Level) : List (Act Unit) :=
  [.setLevel p level, .fire (Bits.bit p)] ++ List.replicate 7 .handlerNext

/-- The operations of a poll that finds the event at once. -/
def pollReady (p : Pin) : List (Act Unit) :=
  [.poll p (), .next p, .next p]

/-- A wait for high is polled, and the pin goes high. The next poll is ready. -/
theorem ready_only_for_own_event_high :
    ∃ s : St Unit, (controller Unit).ReachableBy Quiet s ∧
      ∃ w, s.wait 3 = some w ∧ w.level = .high ∧ w.poll = .ready ∧ w.event = true := by
  obtain ⟨s, hr, hs⟩ := (controller Unit).reachableBy_of_execBy (P := Quiet)
    ([.new 3 .high] ++ pollPending 3 ++ changeLevel 3 .high ++ pollReady 3)
    (readyFor 3 .high true) (by decide +kernel)
  obtain ⟨w, hw, hlevel, hready, -⟩ := readyFor_iff.mp hs
  exact ⟨s, hr, w, hw, hlevel, hready, ready_only_for_own_event hr hw hready⟩

/-- A wait for high is polled and dropped. The pin goes high, and the interrupt fires. A wait for
low is ready at its first poll, and no interrupt for low has fired. -/
theorem dropped_wait_fires_next_wait :
    ∃ s : St Unit, (controller Unit).Reachable s ∧
      ∃ w, s.wait 3 = some w ∧ w.level = .low ∧ w.poll = .ready ∧ w.event = false := by
  obtain ⟨s, hr, hs⟩ := (controller Unit).reachable_of_exec
    ([.new 3 .high] ++ pollPending 3 ++ [.drop 3] ++ changeLevel 3 .high ++ [.new 3 .low] ++
      pollReady 3)
    (readyFor 3 .low false) (by decide +kernel)
  exact ⟨s, hr, readyFor_iff.mp hs⟩

/-! ## The registrations in the mask -/

/-- The bits of the registered pins are set in the mask. -/
def NoneLost (s : St W) : Prop := ∀ p, s.registered p = true → Bits.test s.pinMask p = true

/-- An update of the mask for the pin `q` has read `mask`, and it has not written yet. It is the
`register` of a wait, or the handler. -/
def Reading (s : St W) (q : Pin) (mask : Pins) : Prop :=
  (∃ w, s.wait q = some w ∧ w.poll = .maskWrite mask) ∨
    ∃ rest, s.handler = .maskWrite q rest mask

/-- A `register` writes its bit at a moment when every update for another pin that has read the mask
and not written it has read that bit. -/
def NoOverlap (s : St W) : Act W → Prop
  | .next p => ∀ mask, (∃ w, s.wait p = some w ∧ w.poll = .maskWrite mask) →
      ∀ q mask', q ≠ p → Reading s q mask' → Bits.test mask' p = true
  | _ => True

/-- The wait is before or in `fast_install`. -/
def Poll.beforeInstall : Poll → Prop
  | .created => True
  | .fastInstall => True
  | _ => False

/-- The invariant of the mask. -/
structure Masked (s : St W) : Prop where
  noneLost : NoneLost s
  /-- An update that has read the mask writes the bits of the registered pins back. -/
  reading : ∀ q mask, Reading s q mask → ∀ p, p ≠ q → s.registered p = true →
    Bits.test mask p = true
  /-- `install` clears the mask before the first `register`. -/
  registered : ∀ p, s.registered p = true → s.installed = true
  installed : ∀ p w, s.wait p = some w → w.poll.beforeInstall ∨ s.installed = true

/-- A step that does not write the mask: every update that has read it did so before, or reads it
now. -/
theorem Masked.frame (h : Masked s) (hm : s'.pinMask = s.pinMask)
    (hreg : s'.registered = s.registered) (hinst : s'.installed = s.installed)
    (hread : ∀ q mask, Reading s' q mask → Reading s q mask ∨ mask = s.pinMask)
    (hwait : ∀ p w, s'.wait p = some w → w.poll.beforeInstall ∨ s.installed = true) :
    Masked s' := by
  refine ⟨fun p hp => ?_, fun q mask hr p hpq hp => ?_, fun p hp => ?_, fun p w hw => ?_⟩
  · rw [hreg] at hp
    rw [hm]
    exact h.noneLost p hp
  · rw [hreg] at hp
    rcases hread q mask hr with hr | rfl
    · exact h.reading q mask hr p hpq hp
    · exact h.noneLost p hp
  · rw [hreg] at hp
    rw [hinst]
    exact h.registered p hp
  · rw [hinst]
    exact hwait p w hw

/-- The updates in progress after a step of the wait on `p`, which leaves the handler where it
is. -/
theorem reading_setWait {p q : Pin} {w : Wait W} {mask : Pins}
    (hw : s'.wait = Function.update s.wait p (some w)) (hh : s'.handler = s.handler)
    (hr : Reading s' q mask) : Reading s q mask ∨ q = p ∧ w.poll = .maskWrite mask := by
  rcases hr with ⟨w', hw', hpoll⟩ | ⟨rest, hrest⟩
  · rw [hw] at hw'
    by_cases hqp : q = p
    · subst hqp
      rw [Function.update_self] at hw'
      cases hw'
      exact Or.inr ⟨rfl, hpoll⟩
    · rw [Function.update_of_ne hqp] at hw'
      exact Or.inl (Or.inl ⟨w', hw', hpoll⟩)
  · rw [hh] at hrest
    exact Or.inl (Or.inr ⟨rest, hrest⟩)

/-- The waits after a step of the wait on `p`. -/
theorem Masked.installed_setWait (h : Masked s) {p q : Pin} {w w' : Wait W}
    (hw : s'.wait = Function.update s.wait p (some w))
    (hp : w.poll.beforeInstall ∨ s.installed = true) (hq : s'.wait q = some w') :
    w'.poll.beforeInstall ∨ s.installed = true := by
  rw [hw] at hq
  by_cases hqp : q = p
  · subst hqp
    rw [Function.update_self] at hq
    cases hq
    exact hp
  · rw [Function.update_of_ne hqp] at hq
    exact h.installed q w' hq

/-- A step of the wait on `p` that does not write the mask. -/
theorem Masked.setWait (h : Masked s) {p : Pin} {w : Wait W}
    (hw : s'.wait = Function.update s.wait p (some w)) (hm : s'.pinMask = s.pinMask)
    (hreg : s'.registered = s.registered) (hinst : s'.installed = s.installed)
    (hh : s'.handler = s.handler) (hp : w.poll.beforeInstall ∨ s.installed = true)
    (hread : ∀ mask, w.poll = .maskWrite mask → mask = s.pinMask) : Masked s' := by
  refine h.frame hm hreg hinst (fun q mask hr => ?_) fun q w' hq => ?_
  · rcases reading_setWait hw hh hr with hr | ⟨-, hr⟩
    · exact Or.inl hr
    · exact Or.inr (hread mask hr)
  · exact h.installed_setWait hw hp hq

/-- `fast_install` is harmless: before it, nothing is registered. -/
theorem Masked.fastInstall (h : Masked s) {p : Pin} {w : Wait W} (hpoll : w.poll = .early) :
    Masked (s.fastInstall.setWait p w) := by
  cases hi : s.installed with
  | true =>
    rw [St.fastInstall, if_pos hi]
    exact h.setWait rfl rfl rfl rfl rfl (Or.inr hi) fun mask hc => by
      rw [hpoll] at hc
      cases hc
  | false =>
    rw [St.fastInstall, if_neg (by simp [hi])]
    have hnone : ∀ p, s.registered p ≠ true := by
      intro p hp
      have hinst := h.registered p hp
      rw [hi] at hinst
      cases hinst
    exact ⟨fun p hp => absurd hp (hnone p), fun q mask _ p _ hp => absurd hp (hnone p),
      fun _ _ => rfl, fun _ _ _ => Or.inr rfl⟩

/-- The state after the write of `register`. -/
def registerWrite (s : St W) (p : Pin) (w : Wait W) (mask : Pins) : St W :=
  { s with
    pinMask := mask ||| Bits.bit p
    registered := Function.update s.registered p true }.setWait p { w with poll := .configure }

/-- The state after the write of the handler. -/
def handlerWrite (s : St W) (pin : Pin) (rest mask : Pins) : St W :=
  { s with
    pinMask := mask &&& ~~~Bits.bit pin
    registered := Function.update s.registered pin false
    handler := .fire pin rest }

theorem next_maskWrite {p : Pin} {w : Wait W} {mask : Pins} (hw : s.wait p = some w)
    (hpoll : w.poll = .maskWrite mask) : s.next p = some (registerWrite s p w mask) := by
  simp only [St.next, hw, hpoll]
  rfl

theorem handlerNext_maskWrite {pin : Pin} {rest mask : Pins}
    (hh : s.handler = .maskWrite pin rest mask) :
    s.handlerNext = some (handlerWrite s pin rest mask) := by
  simp only [St.handlerNext, hh]
  rfl

/-- The write of `register`. The updates in progress have read the bit of this pin. -/
theorem Masked.register (h : Masked s) {p : Pin} {w : Wait W} {mask : Pins}
    (hw : s.wait p = some w) (hpoll : w.poll = .maskWrite mask)
    (ho : NoOverlap s (.next p)) :
    Masked (registerWrite s p w mask) := by
  have hinst : s.installed = true := by
    rcases h.installed p w hw with hb | hi
    · rw [hpoll] at hb
      exact hb.elim
    · exact hi
  refine ⟨fun q hq => ?_, fun q mask' hr p' hne hp' => ?_, fun _ _ => hinst, fun _ _ _ =>
    Or.inr hinst⟩
  · show Bits.test (mask ||| Bits.bit p) q = true
    by_cases hqp : q = p
    · simp [hqp]
    · have hq' : Function.update s.registered p true q = true := hq
      rw [Function.update_of_ne hqp] at hq'
      have hold := h.reading p mask (Or.inl ⟨w, hw, hpoll⟩) q hqp hq'
      simp [hold]
  · -- The update of `q` has read the mask before this write.
    have hold : Reading s q mask' := by
      have hwait : (registerWrite s p w mask).wait =
          Function.update s.wait p (some { w with poll := .configure }) := rfl
      rcases reading_setWait hwait rfl hr with hr | ⟨-, hr⟩
      · exact hr
      · cases hr
    by_cases hpp : p' = p
    · subst hpp
      exact ho mask ⟨w, hw, hpoll⟩ q mask' (Ne.symm hne) hold
    · have hp'' : Function.update s.registered p true p' = true := hp'
      rw [Function.update_of_ne hpp] at hp''
      exact h.reading q mask' hold p' hne hp''

/-- A poll keeps the invariant of the mask. -/
theorem Masked.next (h : Masked s) {p : Pin} (ho : NoOverlap s (.next p))
    (hs : s.next p = some s') : Masked s' := by
  -- Past `fast_install`, the callback is installed.
  have hinst : ∀ {w : Wait W}, s.wait p = some w → ¬w.poll.beforeInstall → s.installed = true :=
    fun hw hb => (h.installed p _ hw).resolve_left hb
  cases PollMove.of_next hs with
  | fastInstall hw hpoll => exact h.fastInstall rfl
  | early hw hpoll =>
    have hi := hinst hw (by rw [hpoll]; exact id)
    refine h.setWait (p := p) rfl rfl rfl rfl rfl (Or.inr hi) fun mask hc => ?_
    have hc' : (if (s.hasFired p).1 then Poll.ready else .wakerRegister) = .maskWrite mask := hc
    split at hc' <;> cases hc'
  | wakerRegister hw hpoll =>
    have hi := hinst hw (by rw [hpoll]; exact id)
    exact h.setWait (p := p) rfl rfl rfl rfl rfl (Or.inr hi) fun mask hc => by cases hc
  | maskRead hw hpoll =>
    have hi := hinst hw (by rw [hpoll]; exact id)
    refine h.setWait (p := p) rfl rfl rfl rfl rfl (Or.inr hi) fun mask hc => ?_
    cases hc
    rfl
  | maskWrite hw hpoll => exact h.register hw hpoll ho
  | configure hw hpoll =>
    have hi := hinst hw (by rw [hpoll]; exact id)
    exact h.setWait (p := p) rfl rfl rfl rfl rfl (Or.inr hi) fun mask hc => by cases hc
  | late hw hpoll =>
    have hi := hinst hw (by rw [hpoll]; exact id)
    refine h.setWait (p := p) rfl rfl rfl rfl rfl (Or.inr hi) fun mask hc => ?_
    have hc' : (if (s.hasFired p).1 then Poll.ready else .pending) = .maskWrite mask := hc
    split at hc' <;> cases hc'

/-- A step of the handler that does not write the mask. -/
theorem Masked.setHandler (h : Masked s) (hw : s'.wait = s.wait) (hm : s'.pinMask = s.pinMask)
    (hreg : s'.registered = s.registered) (hinst : s'.installed = s.installed)
    (hread : ∀ q rest mask, s'.handler = .maskWrite q rest mask → mask = s.pinMask) :
    Masked s' := by
  refine h.frame hm hreg hinst (fun q mask hr => ?_) fun p w hp => ?_
  · rcases hr with ⟨w, hp, hpoll⟩ | ⟨rest, hrest⟩
    · rw [hw] at hp
      exact Or.inl (Or.inl ⟨w, hp, hpoll⟩)
    · exact Or.inr (hread q rest mask hrest)
  · rw [hw] at hp
    exact h.installed p w hp

/-- The write of the handler. It takes out its own pin only. -/
theorem Masked.handled (h : Masked s) {pin : Pin} {rest mask : Pins}
    (hh : s.handler = .maskWrite pin rest mask) :
    Masked (handlerWrite s pin rest mask) := by
  -- A pin that stays registered is another one.
  have hother : ∀ p, Function.update s.registered pin false p = true →
      p ≠ pin ∧ s.registered p = true := by
    intro p hp
    by_cases hpp : p = pin
    · rw [hpp, Function.update_self] at hp
      cases hp
    · rw [Function.update_of_ne hpp] at hp
      exact ⟨hpp, hp⟩
  refine ⟨fun p hp => ?_, fun q mask' hr p hne hp => ?_, fun p hp => ?_, h.installed⟩
  · obtain ⟨hpp, hp'⟩ := hother p hp
    have hold := h.reading pin mask (Or.inr ⟨rest, hh⟩) p hpp hp'
    show Bits.test (mask &&& ~~~Bits.bit pin) p = true
    simp [hold, hpp]
  · rcases hr with hr | ⟨rest', hrest⟩
    · exact h.reading q mask' (Or.inl hr) p hne (hother p hp).2
    · cases hrest
  · exact h.registered p (hother p hp).2

/-- The handler keeps the invariant of the mask. -/
theorem Masked.handlerNext (h : Masked s) (hs : s.handlerNext = some s') : Masked s' := by
  cases HandlerMove.of_handlerNext hs with
  | maskRead hh =>
    refine h.setHandler rfl rfl rfl rfl fun q rest mask hc => ?_
    cases hc
    rfl
  | maskWrite hh => exact h.handled hh
  | done hh | pin hne hh | disable hh | fire hh | wake hh =>
    -- The handler leaves the mask, and has not read it.
    exact h.setHandler rfl rfl rfl rfl fun q rest mask hc => by cases hc

/-- `Wait.fire` leaves the place of the poll. -/
@[simp] theorem Wait.fire_poll (w : Wait W) (mode : Option Level) :
    (w.fire mode).poll = w.poll := by
  unfold Wait.fire
  split <;> rfl

/-- An interrupt that fires leaves the mask and the updates in progress. -/
theorem Masked.fire (h : Masked s) {pins : Pins} (hs : s.fire pins = some s') : Masked s' := by
  unfold St.fire at hs
  split at hs
  · cases hs
    -- A wait after the step was there before it, at the same place.
    have hold : ∀ (p : Pin) (w : Wait W),
        (if Bits.test pins p then (s.wait p).map fun w => w.fire (s.interrupt p)
          else s.wait p) = some w → ∃ w₀, s.wait p = some w₀ ∧ w₀.poll = w.poll := by
      intro p w hw
      split at hw
      · obtain ⟨w₀, hw₀, rfl⟩ := Option.map_eq_some_iff.mp hw
        exact ⟨w₀, hw₀, (w₀.fire_poll _).symm⟩
      · exact ⟨w, hw, rfl⟩
    refine h.frame rfl rfl rfl (fun q mask hr => ?_) fun p w hw => ?_
    · rcases hr with ⟨w, hw, hpoll⟩ | ⟨rest, hrest⟩
      · obtain ⟨w₀, hw₀, hpoll₀⟩ := hold q w hw
        exact Or.inl (Or.inl ⟨w₀, hw₀, hpoll₀.trans hpoll⟩)
      · cases hrest
    · obtain ⟨w₀, hw₀, hpoll₀⟩ := hold p w hw
      rw [← hpoll₀]
      exact h.installed p w₀ hw₀
  · cases hs

/-- Every step keeps the invariant of the mask when no update is overtaken by a `register`. -/
theorem Masked.step (h : Masked s) {a : Act W} (ho : NoOverlap s a)
    (hs : (controller W).step s a = some s') : Masked s' := by
  cases a with
  | new p level =>
    simp only [controller, St.new] at hs
    split at hs
    · cases hs
      exact h.setWait (p := p) rfl rfl rfl rfl rfl (Or.inl trivial) fun mask hc => by cases hc
    · cases hs
  | drop p =>
    simp only [controller, St.drop] at hs
    split at hs
    · cases hs
    · split at hs
      · cases hs
        -- The waits on the other pins are the ones from before.
        have hold : ∀ (q : Pin) (w : Wait W),
            Function.update s.wait p none q = some w → s.wait q = some w := by
          intro q w hq
          by_cases hqp : q = p
          · rw [hqp, Function.update_self] at hq
            cases hq
          · rwa [Function.update_of_ne hqp] at hq
        refine h.frame rfl rfl rfl (fun q mask hr => ?_) fun q w hq => ?_
        · rcases hr with ⟨w, hw, hpoll⟩ | hr
          · exact Or.inl (Or.inl ⟨w, hold q w hw, hpoll⟩)
          · exact Or.inl (Or.inr hr)
        · exact h.installed q w (hold q w hq)
      · cases hs
  | poll p waker =>
    simp only [controller, St.poll] at hs
    split at hs
    · cases hs
    · split at hs
      · cases hs
        exact h.setWait (p := p) rfl rfl rfl rfl rfl (Or.inl trivial) fun mask hc => by cases hc
      · cases hs
  | next p => exact h.next ho hs
  | setLevel p level =>
    cases hs
    exact ⟨h.noneLost, h.reading, h.registered, h.installed⟩
  | fire pins => exact h.fire hs
  | handlerNext => exact h.handlerNext hs

/-- The update in progress for the pin `q` writes what it has read, so the bit of another pin that
it has not read is gone. -/
theorem lost_of_reading {p q : Pin} {mask : Pins} (hqp : q ≠ p) (hr : Reading s q mask)
    (hreg : s.registered p = true) (hbit : Bits.test mask p = false) :
    ∃ a s', (controller W).step s a = some s' ∧ ¬NoneLost s' := by
  rcases hr with ⟨w, hw, hpoll⟩ | ⟨rest, hrest⟩
  · refine ⟨.next q, registerWrite s q w mask, next_maskWrite hw hpoll, fun hnone => ?_⟩
    have hp : Bits.test (mask ||| Bits.bit q) p = true := by
      refine hnone p ?_
      show Function.update s.registered q true p = true
      rw [Function.update_of_ne (Ne.symm hqp), hreg]
    simp [hbit, Ne.symm hqp] at hp
  · refine ⟨.handlerNext, handlerWrite s q rest mask, handlerNext_maskWrite hrest, fun hnone => ?_⟩
    have hp : Bits.test (mask &&& ~~~Bits.bit q) p = true := by
      refine hnone p ?_
      show Function.update s.registered q false p = true
      rw [Function.update_of_ne (Ne.symm hqp), hreg]
    simp [hbit] at hp

/-- Whether registrations are lost is decided by the overlap of updates.

* In every state of every run whose `register` calls meet `NoOverlap`, the bit of every registered
  pin is set in the mask.
* After a step of a run that does not meet it, a registration can be lost by the next step. -/
theorem noneLost_of_noOverlap :
    (∀ s, (controller W).ReachableBy NoOverlap s → NoneLost s) ∧
    (∀ s a s₁, (controller W).Reachable s → ¬NoOverlap s a →
      (controller W).step s a = some s₁ →
      ∃ s₂, (controller W).Later s₁ s₂ ∧ ¬NoneLost s₂) := by
  constructor
  · intro s h
    have hmasked : Masked s := by
      refine h.invariant (I := Masked) ?_ fun s a s' hi ho hs => hi.step ho hs
      refine ⟨fun p hp => (nomatch hp), fun q mask hr p _ hp => (nomatch hp),
        fun p hp => (nomatch hp), fun p w hw => (nomatch hw)⟩
    exact hmasked.noneLost
  · intro s a s₁ _ ho hs
    cases a with
    | next p =>
      simp only [NoOverlap, not_forall] at ho
      obtain ⟨mask, ⟨w, hw, hpoll⟩, q, mask', hqp, hr, hbit⟩ := ho
      obtain rfl := Option.some.inj ((next_maskWrite hw hpoll).symm.trans hs)
      -- The other update is still in progress after the write.
      have hr' : Reading (registerWrite s p w mask) q mask' := by
        rcases hr with ⟨w', hw', hpoll'⟩ | hr
        · refine Or.inl ⟨w', ?_, hpoll'⟩
          show Function.update s.wait p _ q = some w'
          rw [Function.update_of_ne hqp, hw']
        · exact Or.inr hr
      have hreg : (registerWrite s p w mask).registered p = true := by
        show Function.update s.registered p true p = true
        rw [Function.update_self]
      obtain ⟨a, s₂, hs₂, hlost⟩ := lost_of_reading hqp hr' hreg (Bool.eq_false_iff.mpr hbit)
      exact ⟨s₂, Relation.ReflTransGen.single ⟨a, hs₂⟩, hlost⟩
    | new | drop | poll | setLevel | fire | handlerNext => exact absurd trivial ho

/-- The pin `p` is the only one with a wait, and the handler does not run. -/
def alone (p : Pin) (s : St W) : Bool :=
  (List.finRange 32).all (fun q => decide (q = p) || (s.wait q).isNone) &&
    decide (s.handler = .idle)

/-- A pin that is alone meets nobody. -/
theorem noOverlap_of_alone {p : Pin} {a : Act W} (h : alone p s = true) : NoOverlap s a := by
  simp only [alone, Bool.and_eq_true, List.all_eq_true, List.mem_finRange, forall_const,
    Bool.or_eq_true, decide_eq_true_eq, Option.isNone_iff_eq_none] at h
  obtain ⟨hwait, hidle⟩ := h
  cases a with
  | next q =>
    rintro mask ⟨w, hw, -⟩ r mask' hrq hr
    -- Both pins have to be the one that is alone.
    have hother : ∀ r w, s.wait r = some w → r = p := by
      intro r w hr
      rcases hwait r with hrp | hnone
      · exact hrp
      · rw [hnone] at hr
        cases hr
    rcases hr with ⟨w', hw', -⟩ | ⟨rest, hrest⟩
    · exact absurd ((hother r w' hw').trans (hother q w hw).symm) hrq
    · rw [hidle] at hrest
      cases hrest
  | new | drop | poll | setLevel | fire | handlerNext => exact trivial

/-- One wait on one pin, up to the end of its `register`. -/
theorem noneLost_of_noOverlap_one :
    ∃ s : St Unit, (controller Unit).ReachableBy NoOverlap s ∧ s.registered 3 = true ∧
      Bits.test s.pinMask 3 = true := by
  obtain ⟨s, hr, hs⟩ := (controller Unit).reachableBy_of_execBy
    (P := fun s _ => alone 3 s = true)
    ([.new 3 .high, .poll 3 ()] ++ List.replicate 5 (.next 3)) (fun s => s.registered 3)
    (by decide +kernel)
  have hr' := hr.mono fun s a ha => noOverlap_of_alone (a := a) ha
  exact ⟨s, hr', hs, noneLost_of_noOverlap.1 s hr' 3 hs⟩

/-- Two waits on two pins up to the reads of their `register` calls, then both writes. The write for
the pin 1 is lost. -/
theorem register_overwrites_register :
    ∃ s : St Unit, (controller Unit).Reachable s ∧ s.registered 1 = true ∧
      Bits.test s.pinMask 1 = false ∧ ¬NoneLost s := by
  obtain ⟨s, hr, hs⟩ := (controller Unit).reachable_of_exec
    ([.new 0 .high, .new 1 .high, .poll 0 (), .poll 1 ()] ++ List.replicate 4 (.next 0) ++
      List.replicate 4 (.next 1) ++ [.next 1, .next 0])
    (fun s => s.registered 1 && !Bits.test s.pinMask 1) (by decide +kernel)
  simp only [Bool.and_eq_true, Bool.not_eq_true'] at hs
  refine ⟨s, hr, hs.1, hs.2, fun hnone => ?_⟩
  have hbit := hnone 1 hs.1
  rw [hs.2] at hbit
  cases hbit

end ZephyrRust.Gpio
