import ZephyrRust.Object

/-!
# `ZephyrRust.Proofs.Object`: one initialization, at one address

`Fits` says for each place in `get` what a thread at this place knows about the object. Only the
thread in the critical section knows that the object is not initialized yet, and only this thread
changes that, so its steps leave the knowledge of all others as it is (`Fits.of_outside`). A move
needs that no thread has a reference, and then nobody knows anything.
-/

set_option autoImplicit false

namespace ZephyrRust.Object

open ZephyrRust.Lib (System)

variable {Tid : Type}

namespace Pc

/-- The thread has a reference to the object. -/
def uses : Pc → Bool
  | .idle | .panicked => false
  | _ => true

/-- The thread is in the critical section. -/
def inside : Pc → Bool
  | .reload _ | .init _ | .inInit _ | .store _ | .leave _ => true
  | _ => false

theorem uses_of_inside {pc : Pc} (h : pc.inside = true) : pc.uses = true := by
  cases pc <;> first | rfl | cases h

end Pc

/-- What a thread knows about the object. -/
def Fits (s : St Tid) : Pc → Prop
  | .idle | .panicked => True
  | .load addr => addr = s.addr
  | .enter addr | .reload addr => addr = s.addr ∧ (s.state = 0 ∨ s.state = addr.toNat)
  | .init addr => addr = s.addr ∧ s.state = 0 ∧ s.started = [] ∧ s.completed = []
  | .inInit addr => addr = s.addr ∧ s.state = 0 ∧ s.started = [addr] ∧ s.completed = []
  | .store addr => addr = s.addr ∧ s.state = 0 ∧ s.started = [addr] ∧ s.completed = [addr]
  | .leave addr | .returned addr => addr = s.addr ∧ s.state = addr.toNat

/-- How far the initialization is. -/
inductive Phase (s : St Tid) : Prop
  | before (state : s.state = 0) (started : s.started = []) (completed : s.completed = [])
  /-- A thread is in `init`, or it has not stored the address yet. -/
  | during (t : Tid) (pc : s.pc t = .inInit s.addr ∨ s.pc t = .store s.addr)
  | after (addr : Addr) (state : s.state = addr.toNat) (started : s.started = [addr])
      (completed : s.completed = [addr])

/-- The invariant. -/
structure Inv (s : St Tid) : Prop where
  users : ∀ t, t ∈ s.users ↔ (s.pc t).uses = true
  critical : ∀ t, s.critical = some t ↔ (s.pc t).inside = true
  fits : ∀ t, Fits s (s.pc t)
  phase : Phase s

variable {s s' : St Tid} {t : Tid}

/-- The knowledge of a thread outside of the critical section does not change when the object stays
where it is, and its state too or it becomes the address. -/
theorem Fits.of_outside {pc : Pc} (h : Fits s pc) (hpc : pc.inside = false)
    (haddr : s'.addr = s.addr) (hstate : s'.state = s.state ∨ s'.state = s.addr.toNat) :
    Fits s' pc := by
  cases pc with
  | idle => trivial
  | panicked => trivial
  | load addr => exact h.trans haddr.symm
  | enter addr =>
    refine ⟨h.1.trans haddr.symm, ?_⟩
    rcases hstate with hsame | hstored
    · rw [hsame]
      exact h.2
    · rw [hstored, h.1]
      exact .inr rfl
  | returned addr =>
    refine ⟨h.1.trans haddr.symm, ?_⟩
    rcases hstate with hsame | hstored
    · rw [hsame]
      exact h.2
    · rw [hstored, h.1]
  | reload addr => cases hpc
  | init addr => cases hpc
  | inInit addr => cases hpc
  | store addr => cases hpc
  | leave addr => cases hpc

/-- Only one thread is in the critical section. -/
theorem Inv.outside (h : Inv s) (ht : (s.pc t).inside = true) {u : Tid} (hu : u ≠ t) :
    (s.pc u).inside = false := by
  by_contra hin
  rw [Bool.not_eq_false] at hin
  have hsame := (h.critical u).mpr hin
  rw [(h.critical t).mpr ht] at hsame
  exact hu (Option.some.inj hsame).symm

/-- While a thread is in the critical section, the initialization is at its place. -/
theorem Inv.during_eq (h : Inv s) (ht : (s.pc t).inside = true) {u : Tid}
    (hu : s.pc u = .inInit s.addr ∨ s.pc u = .store s.addr) : u = t := by
  by_contra hne
  have hout := h.outside ht hne
  rcases hu with hu | hu <;>
    · rw [hu] at hout
      cases hout

/-- An initialized object. -/
theorem Inv.of_state (h : Inv s) {addr : Addr} (hstate : s.state = addr.toNat) :
    s.started = [addr] ∧ s.completed = [addr] := by
  have hne := addr.ne_zero
  cases h.phase with
  | before hzero => omega
  | during u hu =>
    have hfits := h.fits u
    rcases hu with hu | hu <;>
      · rw [hu] at hfits
        have hzero : s.state = 0 := hfits.2.1
        omega
  | after addr' hstate' hstarted hcompleted =>
    obtain rfl : addr = addr' := by
      cases addr
      cases addr'
      congr
      exact hstate.symm.trans hstate'
    exact ⟨hstarted, hcompleted⟩

/-- Before the initialization, seen from the critical section. -/
theorem Inv.of_zero (h : Inv s) {addr : Addr} (ht : s.pc t = .reload addr) (hstate : s.state = 0) :
    s.started = [] ∧ s.completed = [] := by
  cases h.phase with
  | before _ hstarted hcompleted => exact ⟨hstarted, hcompleted⟩
  | during u hu =>
    obtain rfl := h.during_eq (t := t) (by rw [ht]; rfl) hu
    rw [ht] at hu
    rcases hu with hu | hu <;> cases hu
  | after addr' hstate' =>
    have := addr'.ne_zero
    omega

variable [DecidableEq Tid]

/-! ## Steps -/

omit [DecidableEq Tid] in
theorem fits_frame {users : List Tid} {critical : Option Tid} {pcs : Tid → Pc} {pc : Pc} :
    Fits { s with users := users, critical := critical, pc := pcs } pc ↔ Fits s pc := by
  cases pc <;> exact Iff.rfl

/-- What holds of the new place of one thread and of the old places of the others. -/
theorem forall_update {P : Tid → Pc → Prop} {pc : Pc} (ht : P t pc)
    (hother : ∀ u, u ≠ t → P u (s.pc u)) (u : Tid) : P u (Function.update s.pc t pc u) := by
  by_cases hu : u = t
  · rw [hu, Function.update_self]
    exact ht
  · rw [Function.update_of_ne hu]
    exact hother u hu

/-- The initialization is not in progress at the place that a thread leaves. -/
theorem Phase.frame (h : Phase s) {users : List Tid} {critical : Option Tid} {pc : Pc}
    (ht : ∀ addr, s.pc t ≠ .inInit addr ∧ s.pc t ≠ .store addr) :
    Phase { s with users := users, critical := critical, pc := Function.update s.pc t pc } := by
  cases h with
  | before hstate hstarted hcompleted => exact .before hstate hstarted hcompleted
  | during u hu =>
    have hne : u ≠ t := by
      rintro rfl
      rcases hu with hu | hu
      · exact (ht _).1 hu
      · exact (ht _).2 hu
    refine .during u ?_
    show Function.update s.pc t pc u = _ ∨ Function.update s.pc t pc u = _
    rw [Function.update_of_ne hne]
    exact hu
  | after addr hstate hstarted hcompleted => exact .after addr hstate hstarted hcompleted

/-- A step that does not touch the object. -/
theorem Inv.quiet (h : Inv s) {users : List Tid} {critical : Option Tid} {pc : Pc}
    (ht : ∀ addr, s.pc t ≠ .inInit addr ∧ s.pc t ≠ .store addr) (hfits : Fits s pc)
    (husers : t ∈ users ↔ pc.uses = true) (husers' : ∀ u, u ≠ t → (u ∈ users ↔ u ∈ s.users))
    (hcritical : critical = some t ↔ pc.inside = true)
    (hcritical' : ∀ u, u ≠ t → (critical = some u ↔ s.critical = some u)) :
    Inv { s with users := users, critical := critical, pc := Function.update s.pc t pc } where
  users := forall_update (P := fun u pc => u ∈ users ↔ pc.uses = true) husers
    fun u hu => (husers' u hu).trans (h.users u)
  critical := forall_update (P := fun u pc => critical = some u ↔ pc.inside = true) hcritical
    fun u hu => (hcritical' u hu).trans (h.critical u)
  fits := fun u => fits_frame.mpr (forall_update (P := fun _ pc => Fits s pc) hfits
    (fun u _ => h.fits u) u)
  phase := h.phase.frame ht

/-- A step of the thread in the critical section that goes on with the initialization. -/
theorem Inv.advance (h : Inv s) {pc : Pc} {state : Nat} {started : List Addr}
    (completed : List Addr) (ht : (s.pc t).inside = true) (hinside : pc.inside = true)
    (hstate : state = s.state ∨ state = s.addr.toNat)
    (hfits : Fits { s with state := state, started := started, completed := completed } pc)
    (hphase : Phase { s with
      state := state, started := started, completed := completed,
      pc := Function.update s.pc t pc }) :
    Inv { s with
      state := state, started := started, completed := completed,
      pc := Function.update s.pc t pc } where
  users := forall_update (P := fun u pc => u ∈ s.users ↔ pc.uses = true)
    (by rw [h.users t, Pc.uses_of_inside ht, Pc.uses_of_inside hinside]) fun u _ => h.users u
  critical := forall_update (P := fun u pc => s.critical = some u ↔ pc.inside = true)
    (by rw [h.critical t, ht, hinside]) fun u _ => h.critical u
  fits := by
    intro u
    have hall := forall_update (s := s) (P := fun _ pc =>
      Fits { s with state := state, started := started, completed := completed } pc) hfits
      (fun u hu => (h.fits u).of_outside (h.outside ht hu) rfl hstate) u
    exact fits_frame.mpr hall
  phase := hphase

theorem Inv.call (h : Inv s) (hs : s.call t = some s') : Inv s' := by
  unfold St.call at hs
  split at hs
  · rename_i hpc
    cases hs
    have hin : (s.pc t).inside = false := by rw [hpc]; rfl
    refine h.quiet ?_ rfl ?_ ?_ ?_ ?_
    · intro addr
      rw [hpc]
      exact ⟨Pc.noConfusion, Pc.noConfusion⟩
    · simp [Pc.uses]
    · intro u hu
      simp [hu]
    · rw [h.critical t, hin]
      rfl
    · exact fun u _ => Iff.rfl
  · cases hs

/-- A thread that lets go of its reference. -/
theorem Inv.letGo (h : Inv s) {pc : Pc} (hin : (s.pc t).inside = false) (hpc : pc.uses = false)
    (hfits : Fits s pc) :
    Inv ({ s with users := s.users.filter (· ≠ t) }.setPc t pc) := by
  refine h.quiet ?_ hfits ?_ ?_ ?_ ?_
  · intro addr
    constructor <;>
      · intro heq
        rw [heq] at hin
        cases hin
  · simp [hpc]
  · intro u hu
    simp [hu]
  · rw [h.critical t, hin]
    cases pc <;> first | rfl | cases hpc
  · exact fun u _ => Iff.rfl

theorem Inv.release (h : Inv s) (hs : s.release t = some s') : Inv s' := by
  unfold St.release at hs
  split at hs
  · rename_i hpc
    cases hs
    exact h.letGo (by rw [hpc]; rfl) rfl trivial
  · cases hs

/-- A step of a thread that keeps its reference and does not enter or leave the critical section. -/
theorem Inv.goTo (h : Inv s) {pc : Pc} (ht : ∀ addr, s.pc t ≠ .inInit addr ∧ s.pc t ≠ .store addr)
    (huses : (s.pc t).uses = pc.uses) (hin : (s.pc t).inside = pc.inside) (hfits : Fits s pc) :
    Inv (s.setPc t pc) :=
  h.quiet ht hfits (by rw [h.users t, huses]) (fun _ _ => Iff.rfl) (by rw [h.critical t, hin])
    fun _ _ => Iff.rfl

/-- The first load. -/
theorem Inv.load (h : Inv s) {addr : Addr} (hpc : s.pc t = .load addr) (hs : s.next t = some s') :
    Inv s' := by
  have haddr : addr = s.addr := by
    have hfits := h.fits t
    rwa [hpc] at hfits
  have ht : ∀ a, s.pc t ≠ .inInit a ∧ s.pc t ≠ .store a := by
    rw [hpc]
    exact fun _ => ⟨Pc.noConfusion, Pc.noConfusion⟩
  simp only [St.next, hpc] at hs
  split at hs
  · rename_i hzero
    cases hs
    exact h.goTo ht (by rw [hpc]; rfl) (by rw [hpc]; rfl) ⟨haddr, .inl hzero⟩
  · split at hs
    · rename_i hsame
      cases hs
      exact h.goTo ht (by rw [hpc]; rfl) (by rw [hpc]; rfl) ⟨haddr, hsame⟩
    · -- The object was moved after its initialization, and `get` panics.
      cases hs
      exact h.letGo (by rw [hpc]; rfl) rfl trivial

theorem Inv.enter (h : Inv s) {addr : Addr} (hpc : s.pc t = .enter addr)
    (hs : s.next t = some s') : Inv s' := by
  have hfits := h.fits t
  rw [hpc] at hfits
  simp only [St.next, hpc] at hs
  split at hs
  · rename_i hnone
    cases hs
    refine h.quiet ?_ hfits ?_ (fun _ _ => Iff.rfl) ?_ ?_
    · rw [hpc]
      exact fun _ => ⟨Pc.noConfusion, Pc.noConfusion⟩
    · rw [h.users t, hpc]
      rfl
    · simp [Pc.inside]
    · intro u hu
      simp [hnone, Ne.symm hu]
  · cases hs

/-- The second load. A thread that has come here has seen the state 0, so the object was not moved
after its initialization. -/
theorem Inv.reload (h : Inv s) {addr : Addr} (hpc : s.pc t = .reload addr)
    (hs : s.next t = some s') : Inv s' ∧ s'.pc t ≠ .panicked := by
  have hfits := h.fits t
  rw [hpc] at hfits
  have ht : ∀ a, s.pc t ≠ .inInit a ∧ s.pc t ≠ .store a := by
    rw [hpc]
    exact fun _ => ⟨Pc.noConfusion, Pc.noConfusion⟩
  simp only [St.next, hpc] at hs
  split at hs
  · rename_i hsame
    cases hs
    refine ⟨h.goTo ht (by rw [hpc]; rfl) (by rw [hpc]; rfl) ⟨hfits.1, hsame⟩, ?_⟩
    simp
  · -- Another state would panic. Here it can only be 0.
    rename_i hother
    have hzero : s.state = 0 := hfits.2.resolve_right hother
    rw [if_neg (fun hne => hne hzero)] at hs
    cases hs
    refine ⟨h.goTo ht (by rw [hpc]; rfl) (by rw [hpc]; rfl) ?_, ?_⟩
    · exact ⟨hfits.1, hzero, h.of_zero hpc hzero⟩
    · simp

theorem Inv.init (h : Inv s) {addr : Addr} (hpc : s.pc t = .init addr) (hs : s.next t = some s') :
    Inv s' := by
  have hfits := h.fits t
  rw [hpc] at hfits
  obtain ⟨haddr, hstate, hstarted, hcompleted⟩ := hfits
  have hlist : s.started ++ [addr] = [addr] := by rw [hstarted]; rfl
  simp only [St.next, hpc, hlist] at hs
  cases hs
  refine h.advance s.completed (by rw [hpc]; rfl) rfl (.inl rfl)
    ⟨haddr, hstate, rfl, hcompleted⟩ (.during t (.inl ?_))
  show Function.update s.pc t _ t = _
  rw [Function.update_self, haddr]

theorem Inv.inInit (h : Inv s) {addr : Addr} (hpc : s.pc t = .inInit addr)
    (hs : s.next t = some s') : Inv s' := by
  have hfits := h.fits t
  rw [hpc] at hfits
  obtain ⟨haddr, hstate, hstarted, hcompleted⟩ := hfits
  have hlist : s.completed ++ [addr] = [addr] := by rw [hcompleted]; rfl
  simp only [St.next, hpc, hlist] at hs
  cases hs
  refine h.advance _ (by rw [hpc]; rfl) rfl (.inl rfl) ⟨haddr, hstate, hstarted, rfl⟩
    (.during t (.inr ?_))
  show Function.update s.pc t _ t = _
  rw [Function.update_self, haddr]

theorem Inv.store (h : Inv s) {addr : Addr} (hpc : s.pc t = .store addr)
    (hs : s.next t = some s') : Inv s' := by
  have hfits := h.fits t
  rw [hpc] at hfits
  obtain ⟨haddr, hstate, hstarted, hcompleted⟩ := hfits
  simp only [St.next, hpc] at hs
  cases hs
  exact h.advance _ (by rw [hpc]; rfl) rfl (.inr (by rw [haddr])) ⟨haddr, rfl⟩
    (.after addr rfl hstarted hcompleted)

theorem Inv.leave (h : Inv s) {addr : Addr} (hpc : s.pc t = .leave addr)
    (hs : s.next t = some s') : Inv s' := by
  have hfits := h.fits t
  have hcritical := (h.critical t).mpr (by rw [hpc]; rfl)
  rw [hpc] at hfits
  simp only [St.next, hpc] at hs
  cases hs
  refine h.quiet ?_ hfits ?_ (fun _ _ => Iff.rfl) ?_ ?_
  · rw [hpc]
    exact fun _ => ⟨Pc.noConfusion, Pc.noConfusion⟩
  · rw [h.users t, hpc]
    rfl
  · simp [Pc.inside]
  · intro u hu
    simp [hcritical, Ne.symm hu]

/-- A thread in `get`, and where it is. -/
theorem Inv.next (h : Inv s) (hs : s.next t = some s') : Inv s' := by
  cases hpc : s.pc t with
  | load addr => exact h.load hpc hs
  | enter addr => exact h.enter hpc hs
  | reload addr => exact (h.reload hpc hs).1
  | init addr => exact h.init hpc hs
  | inInit addr => exact h.inInit hpc hs
  | store addr => exact h.store hpc hs
  | leave addr => exact h.leave hpc hs
  | idle | returned addr | panicked =>
    simp only [St.next, hpc] at hs
    cases hs

omit [DecidableEq Tid] in
/-- A move. No thread has a reference, so none is in `get`. -/
theorem Inv.move (h : Inv s) {addr : Addr} (hs : s.move addr = some s') : Inv s' := by
  unfold St.move at hs
  split at hs
  · rename_i hnil
    cases hs
    have hidle : ∀ t, (s.pc t).uses = false := by
      intro t
      rw [← Bool.not_eq_true, ← h.users t, hnil]
      exact List.not_mem_nil
    refine ⟨h.users, h.critical, fun t => ?_, ?_⟩
    · -- Only a thread with a reference knows an address.
      have ht := hidle t
      show Fits _ (s.pc t)
      cases hpc : s.pc t <;> first | trivial | (rw [hpc] at ht; cases ht)
    · cases h.phase with
      | before hstate hstarted hcompleted => exact .before hstate hstarted hcompleted
      | during t ht =>
        have hno := hidle t
        rcases ht with ht | ht <;>
          · rw [ht] at hno
            cases hno
      | after a hstate hstarted hcompleted => exact .after a hstate hstarted hcompleted
  · cases hs

theorem Inv.of_reachable {addr : Addr} (h : (object Tid addr).Reachable s) : Inv s := by
  refine h.invariant ⟨?_, ?_, fun _ => trivial, .before rfl rfl rfl⟩ ?_
  · intro t
    exact ⟨fun ht => absurd ht List.not_mem_nil, fun ht => by cases ht⟩
  · intro t
    constructor <;>
      · intro ht
        cases ht
  · intro s a s' hs h'
    cases a with
    | call t => exact hs.call h'
    | next t => exact hs.next h'
    | release t => exact hs.release h'
    | move addr => exact hs.move h'

/-! ## Results -/

/-- `init` has been called at an address that is not the one now. -/
def MovedAfterInit (s : St Tid) : Prop := ∃ addr ∈ s.started, addr ≠ s.addr

omit [DecidableEq Tid] in
theorem Inv.started_le (h : Inv s) : s.started.length ≤ 1 := by
  cases h.phase with
  | before _ hstarted _ =>
    rw [hstarted]
    exact Nat.zero_le 1
  | during t ht =>
    have hfits := h.fits t
    rcases ht with ht | ht <;>
      · rw [ht] at hfits
        rw [hfits.2.2.1]
        exact Nat.le_refl 1
  | after addr _ hstarted _ =>
    rw [hstarted]
    exact Nat.le_refl 1

omit [DecidableEq Tid] in
/-- The state of a moved object is an address that is not its own. -/
theorem Inv.movedAfterInit_iff (h : Inv s) :
    MovedAfterInit s ↔ s.state ≠ 0 ∧ s.state ≠ s.addr.toNat := by
  constructor
  · rintro ⟨addr, hmem, hne⟩
    cases h.phase with
    | before _ hstarted _ =>
      rw [hstarted] at hmem
      cases hmem
    | during t ht =>
      -- The initialization that is in progress is at the address now.
      have hfits := h.fits t
      rcases ht with ht | ht <;>
        · rw [ht] at hfits
          rw [hfits.2.2.1] at hmem
          exact absurd (List.mem_singleton.mp hmem) hne
    | after addr' hstate hstarted _ =>
      rw [hstarted] at hmem
      obtain rfl := List.mem_singleton.mp hmem
      rw [hstate]
      refine ⟨addr.ne_zero, fun heq => hne ?_⟩
      exact Addr.ext heq
  · rintro ⟨hzero, hother⟩
    cases h.phase with
    | before hstate _ _ => exact absurd hstate hzero
    | during t ht =>
      have hfits := h.fits t
      rcases ht with ht | ht <;>
        · rw [ht] at hfits
          exact absurd hfits.2.1 hzero
    | after addr hstate hstarted _ =>
      refine ⟨addr, by rw [hstarted]; exact List.mem_singleton_self addr, ?_⟩
      rintro rfl
      exact hother hstate

/-- A thread that has a reference to a moved object is at its first load, and there it panics. -/
theorem Inv.panics (h : Inv s) (hmoved : MovedAfterInit s) (ht : t ∈ s.users) :
    ∃ s', s.next t = some s' ∧ s'.pc t = .panicked := by
  obtain ⟨hzero, hother⟩ := h.movedAfterInit_iff.mp hmoved
  have hfits := h.fits t
  have huses := (h.users t).mp ht
  cases hpc : s.pc t with
  | load addr =>
    rw [hpc] at hfits
    refine ⟨s.panic t, ?_, ?_⟩
    · simp only [St.next, hpc]
      rw [if_neg hzero, if_neg]
      rw [show addr = s.addr from hfits]
      exact hother
    · simp [St.panic]
  | idle | panicked =>
    rw [hpc] at huses
    cases huses
  | enter addr | reload addr =>
    rw [hpc] at hfits
    obtain ⟨rfl, hstate | hstate⟩ := hfits <;> contradiction
  | init addr | inInit addr | store addr =>
    rw [hpc] at hfits
    exact absurd hfits.2.1 hzero
  | leave addr | returned addr =>
    rw [hpc] at hfits
    obtain ⟨rfl, hstate⟩ := hfits
    contradiction

/-- Only a thread that finds another address panics. -/
theorem Inv.moved_of_panicked (h : Inv s) (hs : s.next t = some s') (hpanic : s'.pc t = .panicked) :
    MovedAfterInit s := by
  cases hpc : s.pc t with
  | load addr =>
    have hfits := h.fits t
    rw [hpc] at hfits
    have hs' := hs
    simp only [St.next, hpc] at hs'
    split at hs'
    · cases hs'
      simp at hpanic
    · split at hs'
      · cases hs'
        simp at hpanic
      · rename_i hzero hother
        rw [show addr = s.addr from hfits] at hother
        exact h.movedAfterInit_iff.mpr ⟨hzero, hother⟩
  | reload addr => exact absurd hpanic (h.reload hpc hs).2
  | enter addr =>
    simp only [St.next, hpc] at hs
    split at hs
    · cases hs
      simp at hpanic
    · cases hs
  | init addr | inInit addr | store addr | leave addr =>
    simp only [St.next, hpc] at hs
    cases hs
    simp at hpanic
  | idle | returned addr | panicked =>
    simp only [St.next, hpc] at hs
    cases hs

/-- The operations of `get` are those of a thread with a reference. -/
theorem Inv.mem_users_of_next (h : Inv s) (hs : s.next t = some s') : t ∈ s.users := by
  rw [h.users t]
  cases hpc : s.pc t with
  | idle | panicked =>
    simp only [St.next, hpc] at hs
    cases hs
  | _ => rfl

/-- Whatever the threads do and however the object is moved between their uses: it is initialized
at most once, a pointer that is in use is its address and the initialization was there, and a
`get` panics if and only if the object was moved after that. -/
theorem initialized_once {addr : Addr} (h : (object Tid addr).Reachable s) :
    s.started.length ≤ 1 ∧
    (∀ t a, s.pc t = .returned a → a = s.addr ∧ s.started = [a] ∧ s.completed = [a]) ∧
    (∀ t s', (object Tid addr).step s (.next t) = some s' →
      (s'.pc t = .panicked ↔ MovedAfterInit s)) ∧
    ∀ t ∈ s.users, MovedAfterInit s →
      ∃ s', (object Tid addr).step s (.next t) = some s' ∧ s'.pc t = .panicked := by
  have hinv := Inv.of_reachable h
  refine ⟨hinv.started_le, fun t a hpc => ?_, fun t s' hs => ⟨hinv.moved_of_panicked hs, ?_⟩,
    fun t ht hmoved => hinv.panics hmoved ht⟩
  · have hfits := hinv.fits t
    rw [hpc] at hfits
    exact ⟨hfits.1, hinv.of_state hfits.2⟩
  · intro hmoved
    obtain ⟨s₁, hs₁, hpanic⟩ := hinv.panics hmoved (hinv.mem_users_of_next hs)
    have heq : s₁ = s' := Option.some.inj (hs₁.symm.trans hs)
    rwa [← heq]

/-- Two threads that both find the state 0, and then a move. -/
theorem initialized_once_then_moved : ∃ s : St (Fin 2), s.started = [⟨16, by decide⟩] ∧
    ∃ s', (object (Fin 2) ⟨16, by decide⟩).step s (.next 0) = some s' ∧ s'.pc 0 = .panicked := by
  obtain ⟨s, hr, hs⟩ := (object (Fin 2) ⟨16, by decide⟩).reachable_of_exec
    [.call 0, .call 1, .next 0, .next 1, .next 0, .next 0, .next 0, .next 0, .next 0, .next 0,
      .next 1, .next 1, .next 1, .release 0, .release 1, .move ⟨32, by decide⟩, .call 0]
    (fun s => decide (s.started = [⟨16, by decide⟩] ∧ s.addr = ⟨32, by decide⟩ ∧ s.users = [0]))
    (by decide +kernel)
  obtain ⟨hstarted, haddr, husers⟩ := of_decide_eq_true hs
  refine ⟨s, hstarted, (initialized_once hr).2.2.2 0 ?_ ⟨⟨16, by decide⟩, ?_, ?_⟩⟩
  · rw [husers]
    exact List.mem_singleton_self 0
  · rw [hstarted]
    exact List.mem_singleton_self _
  · rw [haddr]
    decide

end ZephyrRust.Object
