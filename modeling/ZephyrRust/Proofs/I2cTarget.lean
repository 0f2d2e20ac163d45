import ZephyrRust.I2cTarget

/-!
# `ZephyrRust.Proofs.I2cTarget`: one claim on a target

The flag `registered` stands for a claim on the target, and `Claim` says who has it: a call of
`register` or `unregister`, a handle of the program, or nobody any more, when the handle was dropped
or its `unregister` failed. In the last case the target stays registered and the flag stays set. All
statements about the flag, the buses and the handles follow from the claim.
-/

set_option autoImplicit false

namespace ZephyrRust.I2cTarget

open ZephyrRust.Lib (System)

variable {Tid Bus : Type}

namespace Pc

/-- The call has the claim. -/
def holds : Pc Bus → Bool
  | .idle | .swap _ | .returned _ => false
  | _ => true

/-- The buses that the target is registered with when the call has the claim. -/
def buses : Pc Bus → List Bus
  | .succeeded bus | .kernelUnregister bus => [bus]
  | _ => []

/-- The call has a handle. -/
def hasHandle : Pc Bus → Bool
  | .kernelUnregister _ | .clear _ => true
  | _ => false

theorem holds_of_atRest {pc : Pc Bus} (h : pc.atRest = true) : pc.holds = false := by
  cases pc <;> first | rfl | cases h

theorem holds_of_hasHandle {pc : Pc Bus} (h : pc.hasHandle = true) : pc.holds = true := by
  cases pc <;> first | rfl | cases h

theorem buses_le (pc : Pc Bus) : pc.buses.length ≤ 1 := by
  cases pc <;> simp [buses]

end Pc

/-- Who has the claim on the target. -/
inductive Claim (s : St Tid Bus) : Prop
  | free (registered : s.registered = false) (buses : s.buses = []) (handles : s.handles = [])
      (none : ∀ u, (s.pc u).holds = false)
  | call (t : Tid) (registered : s.registered = true) (buses : s.buses = (s.pc t).buses)
      (handles : s.handles = []) (holds : (s.pc t).holds = true)
      (others : ∀ u, u ≠ t → (s.pc u).holds = false)
  | handle (bus : Bus) (registered : s.registered = true) (buses : s.buses = [bus])
      (handles : s.handles = [bus]) (none : ∀ u, (s.pc u).holds = false)
  /-- The handle is gone, and the target is still registered. -/
  | lost (bus : Bus) (registered : s.registered = true) (buses : s.buses = [bus])
      (handles : s.handles = []) (none : ∀ u, (s.pc u).holds = false)

variable {s s' : St Tid Bus} {t : Tid} {bus : Bus}

namespace Claim

/-- The claim of a call. -/
theorem of_holds (h : Claim s) (ht : (s.pc t).holds = true) :
    s.registered = true ∧ s.buses = (s.pc t).buses ∧ s.handles = [] ∧
      ∀ u, u ≠ t → (s.pc u).holds = false := by
  cases h with
  | call t' registered buses handles holds others =>
    obtain rfl : t = t' := by
      by_contra hne
      rw [others t hne] at ht
      cases ht
    exact ⟨registered, buses, handles, others⟩
  | free _ _ _ none | handle _ _ _ _ none | lost _ _ _ _ none =>
    rw [none t] at ht
    cases ht

/-- The claim when the flag is clear. -/
theorem of_clear (h : Claim s) (hflag : s.registered = false) :
    s.buses = [] ∧ s.handles = [] ∧ ∀ u, (s.pc u).holds = false := by
  cases h with
  | free _ buses handles none => exact ⟨buses, handles, none⟩
  | call _ registered => cases hflag.symm.trans registered
  | handle _ registered => cases hflag.symm.trans registered
  | lost _ registered => cases hflag.symm.trans registered

/-- The claim of a handle of the program. -/
theorem of_handle (h : Claim s) (hbus : bus ∈ s.handles) :
    s.registered = true ∧ s.buses = [bus] ∧ s.handles = [bus] ∧ ∀ u, (s.pc u).holds = false := by
  cases h with
  | handle bus' registered buses handles none =>
    rw [handles] at hbus
    obtain rfl := List.mem_singleton.mp hbus
    exact ⟨registered, buses, handles, none⟩
  | free _ _ handles | call _ _ _ handles | lost _ _ _ handles =>
    rw [handles] at hbus
    cases hbus

variable [DecidableEq Tid]

/-- No call has the claim after a step of one thread. -/
theorem holds_update {pc : Pc Bus} (hpc : pc.holds = false)
    (hothers : ∀ u, u ≠ t → (s.pc u).holds = false) (u : Tid) :
    (Function.update s.pc t pc u).holds = false := by
  by_cases hu : u = t
  · rw [hu, Function.update_self]
    exact hpc
  · rw [Function.update_of_ne hu]
    exact hothers u hu

/-- A step of the call that has the claim. -/
theorem advance (h : Claim s) (pc : Pc Bus) (cbs : Callbacks) (config : Config)
    (ht : (s.pc t).holds = true) (hpc : pc.holds = true) :
    Claim { s with
      cbs := cbs, config := config, buses := pc.buses, pc := Function.update s.pc t pc } := by
  obtain ⟨registered, -, handles, others⟩ := h.of_holds ht
  have hself : Function.update s.pc t pc t = pc := Function.update_self t pc s.pc
  refine .call t registered ?_ handles ?_ ?_
  · exact congrArg Pc.buses hself.symm
  · exact (congrArg Pc.holds hself).trans hpc
  · intro u hu
    show (Function.update s.pc t pc u).holds = false
    rw [Function.update_of_ne hu]
    exact others u hu

/-- A step of a call without the claim that leaves the target as it is. -/
theorem quiet (h : Claim s) {pc : Pc Bus} (ht : (s.pc t).holds = false) (hpc : pc.holds = false) :
    Claim (s.setPc t pc) := by
  cases h with
  | free registered buses handles none =>
    exact .free registered buses handles (holds_update hpc fun u _ => none u)
  | call t' registered buses handles holds others =>
    -- The call with the claim is another one, so it keeps its place.
    have hne : t' ≠ t := by
      rintro rfl
      rw [ht] at holds
      cases holds
    have hsame : (s.setPc t pc).pc t' = s.pc t' := Function.update_of_ne hne _ _
    refine .call t' registered ?_ handles ?_ ?_
    · rw [hsame]
      exact buses
    · rw [hsame]
      exact holds
    · intro u hu
      show (Function.update s.pc t pc u).holds = false
      by_cases hut : u = t
      · rw [hut, Function.update_self]
        exact hpc
      · rw [Function.update_of_ne hut]
        exact others u hu
  | handle bus registered buses handles none =>
    exact .handle bus registered buses handles (holds_update hpc fun u _ => none u)
  | lost bus registered buses handles none =>
    exact .lost bus registered buses handles (holds_update hpc fun u _ => none u)

/-! ## Steps -/

theorem register (h : Claim s) (hs : s.register t bus = some s') : Claim s' := by
  unfold St.register at hs
  split at hs
  · rename_i hrest
    cases hs
    exact h.quiet (Pc.holds_of_atRest hrest) rfl
  · cases hs

variable [DecidableEq Bus]

theorem swap (h : Claim s) {code : Int32} (hpc : s.pc t = .swap bus)
    (hs : s.next t code = some s') : Claim s' := by
  simp only [St.next, hpc] at hs
  split at hs
  · -- The flag was set before, so the exchange changes nothing.
    rename_i hbusy
    cases hs
    rw [show { s with registered := true } = s by rw [← hbusy]]
    exact h.quiet (by rw [hpc]; rfl) rfl
  · -- The flag was clear, so nobody else has the claim.
    rename_i hclear
    cases hs
    obtain ⟨buses, handles, none⟩ := h.of_clear (Bool.not_eq_true _ ▸ hclear)
    refine .call t rfl ?_ handles ?_ ?_
    · simp [buses, Pc.buses]
    · simp [Pc.holds]
    · intro u hu
      show (Function.update s.pc t _ u).holds = false
      rw [Function.update_of_ne hu]
      exact none u

/-- The kernel call of `register` adds the bus when it succeeds. -/
theorem kernelRegister (h : Claim s) {code : Int32} (hpc : s.pc t = .kernelRegister bus)
    (hs : s.next t code = some s') : Claim s' := by
  have ht : (s.pc t).holds = true := by rw [hpc]; rfl
  obtain ⟨-, buses, -, -⟩ := h.of_holds ht
  rw [hpc] at buses
  simp only [St.next, hpc] at hs
  split at hs
  · rename_i e _
    cases hs
    have := h.advance (.failed e) s.cbs s.config ht rfl
    rwa [show (Pc.failed e : Pc Bus).buses = s.buses from buses.symm] at this
  · cases hs
    have hlist : bus :: s.buses = (Pc.succeeded bus).buses := congrArg (bus :: ·) buses
    simp only [St.setPc, hlist]
    exact h.advance _ _ _ ht rfl

/-- The kernel call of `unregister` removes the bus when it succeeds. -/
theorem kernelUnregister (h : Claim s) {code : Int32}
    (hpc : s.pc t = .kernelUnregister bus) (hs : s.next t code = some s') : Claim s' := by
  have ht : (s.pc t).holds = true := by rw [hpc]; rfl
  obtain ⟨registered, buses, handles, others⟩ := h.of_holds ht
  rw [hpc] at buses
  simp only [St.next, hpc] at hs
  split at hs
  · -- The kernel keeps the registration, and the handle is gone.
    cases hs
    exact .lost bus registered buses handles (holds_update rfl others)
  · cases hs
    have hlist : s.buses.erase bus = (Pc.clear bus).buses := by
      rw [buses]
      exact List.erase_cons_head bus []
    simp only [St.setPc, hlist]
    exact h.advance _ _ _ ht rfl

omit [DecidableEq Bus] in
/-- The end of a call that clears the flag. -/
theorem release (h : Claim s) {result : Except Error Unit} (ht : (s.pc t).holds = true)
    (hbuses : (s.pc t).buses = []) :
    Claim ({ s with registered := false }.setPc t (.returned result)) := by
  obtain ⟨-, buses, handles, others⟩ := h.of_holds ht
  exact .free rfl (buses.trans hbuses) handles (holds_update rfl others)

theorem next (h : Claim s) {code : Int32} (hs : s.next t code = some s') : Claim s' := by
  cases hpc : s.pc t with
  | swap bus => exact h.swap hpc hs
  | writeCbs bus =>
    have ht : (s.pc t).holds = true := by rw [hpc]; rfl
    have buses := (h.of_holds ht).2.1
    rw [hpc] at buses
    simp only [St.next, hpc] at hs
    cases hs
    have hnext := h.advance (.writeConfig bus) .trampolines s.config ht rfl
    rwa [show (Pc.writeConfig bus).buses = s.buses from buses.symm] at hnext
  | writeConfig bus =>
    have ht : (s.pc t).holds = true := by rw [hpc]; rfl
    have buses := (h.of_holds ht).2.1
    rw [hpc] at buses
    simp only [St.next, hpc] at hs
    cases hs
    have hnext := h.advance (.kernelRegister bus) s.cbs { s.config with callbacks := true } ht rfl
    rwa [show (Pc.kernelRegister bus).buses = s.buses from buses.symm] at hnext
  | kernelRegister bus => exact h.kernelRegister hpc hs
  | failed e =>
    simp only [St.next, hpc] at hs
    cases hs
    exact h.release (by rw [hpc]; rfl) (by rw [hpc]; rfl)
  | succeeded bus =>
    obtain ⟨registered, buses, handles, others⟩ := h.of_holds (t := t) (by rw [hpc]; rfl)
    rw [hpc] at buses
    simp only [St.next, hpc] at hs
    cases hs
    refine .handle bus registered buses ?_ (holds_update rfl others)
    exact congrArg (bus :: ·) handles
  | kernelUnregister bus => exact h.kernelUnregister hpc hs
  | clear bus =>
    simp only [St.next, hpc] at hs
    cases hs
    exact h.release (by rw [hpc]; rfl) (by rw [hpc]; rfl)
  | idle | returned result =>
    simp only [St.next, hpc] at hs
    cases hs

theorem unregister (h : Claim s) (hs : s.unregister t bus = some s') : Claim s' := by
  unfold St.unregister at hs
  split at hs
  · rename_i hcan
    cases hs
    obtain ⟨registered, buses, handles, none⟩ := h.of_handle hcan.2
    have hself : Function.update s.pc t (.kernelUnregister bus) t = .kernelUnregister bus :=
      Function.update_self t _ s.pc
    refine .call t registered ?_ ?_ ?_ ?_
    · exact buses.trans (congrArg Pc.buses hself.symm)
    · show s.handles.erase bus = []
      rw [handles]
      exact List.erase_cons_head bus []
    · exact congrArg Pc.holds hself
    · intro u hu
      show (Function.update s.pc t _ u).holds = false
      rw [Function.update_of_ne hu]
      exact none u
  · cases hs

omit [DecidableEq Tid] in
theorem dropHandle (h : Claim s) (hs : s.dropHandle bus = some s') : Claim s' := by
  unfold St.dropHandle at hs
  split at hs
  · rename_i hcan
    cases hs
    obtain ⟨registered, buses, handles, none⟩ := h.of_handle hcan
    refine .lost bus registered buses ?_ none
    show s.handles.erase bus = []
    rw [handles]
    exact List.erase_cons_head bus []
  · cases hs

theorem of_reachable {address : UInt16} (h : (target Tid Bus address).Reachable s) : Claim s := by
  refine h.invariant (.free rfl rfl rfl fun _ => rfl) ?_
  intro s a s' hs h'
  cases a with
  | register t bus => exact hs.register h'
  | unregister t bus => exact hs.unregister h'
  | dropHandle bus => exact hs.dropHandle h'
  | next t code => exact hs.next h'

end Claim

/-! ## Results -/

namespace Claim

theorem registered_of_buses (h : Claim s) (hbuses : s.buses ≠ []) : s.registered = true := by
  by_contra hclear
  exact hbuses (h.of_clear (Bool.not_eq_true _ ▸ hclear)).1

theorem buses_le (h : Claim s) : s.buses.length ≤ 1 := by
  cases h with
  | free _ buses =>
    rw [buses]
    exact Nat.zero_le 1
  | call t _ buses =>
    rw [buses]
    exact Pc.buses_le (s.pc t)
  | handle _ _ buses | lost _ _ buses =>
    rw [buses]
    exact Nat.le_refl 1

theorem handles_le (h : Claim s) : s.handles.length ≤ 1 := by
  cases hlist : s.handles with
  | nil => exact Nat.zero_le 1
  | cons bus rest =>
    have hmem : bus ∈ s.handles := by
      rw [hlist]
      exact List.mem_cons_self
    have hone := (h.of_handle hmem).2.2.1
    rw [← hlist, hone]
    exact Nat.le_refl 1

/-- A handle in `unregister` is the only one. -/
theorem handle_unique (h : Claim s) (ht : (s.pc t).hasHandle = true) :
    s.handles = [] ∧ ∀ u, (s.pc u).hasHandle = true → u = t := by
  obtain ⟨-, -, handles, others⟩ := h.of_holds (Pc.holds_of_hasHandle ht)
  refine ⟨handles, fun u hu => ?_⟩
  by_contra hne
  have hout := others u hne
  rw [Pc.holds_of_hasHandle hu] at hout
  cases hout

end Claim

variable [DecidableEq Tid] [DecidableEq Bus]

/-- The action writes the callback table or the configuration. -/
def Writes (s : St Tid Bus) (a : Act Tid Bus) : Prop :=
  ∃ t code bus, a = .next t code ∧ (s.pc t = .writeCbs bus ∨ s.pc t = .writeConfig bus)

/-- The flag is clear, and a call of `register` succeeds when its kernel call does. -/
def Registrable (address : UInt16) (s : St Tid Bus) : Prop :=
  s.registered = false ∧ s.buses = [] ∧
    ∀ u bus code, (s.pc u).atRest = true → Error.toResultVoid code = .ok () →
      ∃ s', (target Tid Bus address).exec s [.register u bus, .next u code, .next u code,
          .next u code, .next u code, .next u code] = some s' ∧
        s'.pc u = .returned (.ok ()) ∧ s'.buses = [bus] ∧ s'.handles = [bus]

/-- A clear flag makes the target registrable. -/
theorem Claim.registrable {address : UInt16} (h : Claim s) (hclear : s.registered = false) :
    Registrable address s := by
  obtain ⟨hbuses, hhandles, -⟩ := h.of_clear hclear
  refine ⟨hclear, hbuses, fun u bus code hrest hcode => ?_⟩
  simp [System.exec, target, St.register, St.next, hrest, hclear, hcode, hbuses, hhandles]

/-- The writes of a step. -/
theorem cbs_of_not_writes {address : UInt16} {a : Act Tid Bus}
    (hs : (target Tid Bus address).step s a = some s') (ha : ¬Writes s a) :
    s'.cbs = s.cbs ∧ s'.config = s.config := by
  cases a with
  | register t bus =>
    simp only [target, St.register] at hs
    split at hs
    · cases hs
      exact ⟨rfl, rfl⟩
    · cases hs
  | unregister t bus =>
    simp only [target, St.unregister] at hs
    split at hs
    · cases hs
      exact ⟨rfl, rfl⟩
    · cases hs
  | dropHandle bus =>
    simp only [target, St.dropHandle] at hs
    split at hs
    · cases hs
      exact ⟨rfl, rfl⟩
    · cases hs
  | next t code =>
    simp only [target, St.next] at hs
    split at hs
    case h_2 bus hpc => exact absurd ⟨t, code, bus, rfl, .inl hpc⟩ ha
    case h_3 bus hpc => exact absurd ⟨t, code, bus, rfl, .inr hpc⟩ ha
    all_goals first
      | (split at hs <;> (cases hs; exact ⟨rfl, rfl⟩))
      | (cases hs; exact ⟨rfl, rfl⟩)
      | cases hs

/-- In every reachable state the flag is set while the target is registered, there is at most one
registration and at most one handle, only an unregistered target is written, and `register` either
returns `EBUSY` and changes nothing or leaves the target registrable when its kernel call fails. -/
theorem registration_exclusive {address : UInt16} (h : (target Tid Bus address).Reachable s) :
    (s.buses ≠ [] → s.registered = true) ∧ s.buses.length ≤ 1 ∧
    (s.handles.length ≤ 1 ∧ ∀ t, (s.pc t).hasHandle = true →
      s.handles = [] ∧ ∀ u, (s.pc u).hasHandle = true → u = t) ∧
    (∀ a s', (target Tid Bus address).step s a = some s' →
      (Writes s a → s.buses = []) ∧ (¬Writes s a → s'.cbs = s.cbs ∧ s'.config = s.config)) ∧
    (∀ t bus code, s.pc t = .swap bus → s.registered = true →
      (target Tid Bus address).step s (.next t code) =
        some (s.setPc t (.returned (.error ebusy)))) ∧
    (∀ t bus code e, s.pc t = .kernelRegister bus → Error.toResultVoid code = .error e →
      (target Tid Bus address).step s (.next t code) = some (s.setPc t (.failed e))) ∧
    ∀ t e code, s.pc t = .failed e →
      ∃ s', (target Tid Bus address).step s (.next t code) = some s' ∧
        s'.pc t = .returned (.error e) ∧ Registrable address s' := by
  have hclaim := Claim.of_reachable h
  refine ⟨hclaim.registered_of_buses, hclaim.buses_le,
    ⟨hclaim.handles_le, fun t => hclaim.handle_unique⟩, fun a s' hs => ⟨?_, cbs_of_not_writes hs⟩,
    ?_, ?_, ?_⟩
  · rintro ⟨t, code, bus, rfl, hpc | hpc⟩ <;>
      · have hbuses := (hclaim.of_holds (t := t) (by rw [hpc]; rfl)).2.1
        rwa [hpc] at hbuses
  · intro t bus code hpc hbusy
    simp only [target, St.next, hpc, hbusy, if_true]
    rw [show { s with registered := true } = s by rw [← hbusy]]
  · intro t bus code e hpc hcode
    simp only [target, St.next, hpc, hcode]
  · intro t e code hpc
    have hs : (target Tid Bus address).step s (.next t code) =
        some ({ s with registered := false }.setPc t (.returned (.error e))) := by
      simp only [target, St.next, hpc]
    refine ⟨_, hs, ?_, (hclaim.next hs).registrable rfl⟩
    exact Function.update_self t _ s.pc

/-- A target that is registered, and its handle is in `unregister`. -/
theorem registration_exclusive_unregister : ∃ s : St (Fin 2) (Fin 2),
    s.buses ≠ [] ∧ s.registered = true ∧ (s.pc 1).hasHandle = true ∧ s.handles = [] := by
  obtain ⟨s, hr, hs⟩ := (target (Fin 2) (Fin 2) 0x42).reachable_of_exec
    [.register 0 0, .register 1 1, .next 0 0, .next 1 0, .next 0 0, .next 0 0, .next 0 0, .next 0 0,
      .unregister 1 0]
    (fun s => decide (s.buses ≠ [] ∧ (s.pc 1).hasHandle = true)) (by decide +kernel)
  obtain ⟨hbuses, hhandle⟩ := of_decide_eq_true hs
  have hexclusive := registration_exclusive hr
  exact ⟨s, hbuses, hexclusive.1 hbuses, hhandle, (hexclusive.2.2.1.2 1 hhandle).1⟩

end ZephyrRust.I2cTarget
