import Mathlib.Data.List.Forall2

/-!
# `ZephyrRust.Lib.Fallible`: computations in `Except`

What a computation in `Except` has done when it returns. `bind_eq_ok` takes a `do` block apart, and
`mapM_eq_ok` a loop that fails at the first element for which its body fails. `Computes` says where a
computation returns and what, and `FailsWith` with which errors it fails.
-/

set_option autoImplicit false

namespace ZephyrRust.Lib.Fallible

variable {ε α β : Type}

/-- A `do` block that returns has returned from its first part. -/
theorem bind_eq_ok {x : Except ε α} {f : α → Except ε β} {b : β} :
    x >>= f = .ok b ↔ ∃ a, x = .ok a ∧ f a = .ok b := by
  cases x with
  | error e =>
    constructor
    · intro h
      cases h
    · rintro ⟨a, ha, -⟩
      cases ha
  | ok a =>
    constructor
    · intro h
      exact ⟨a, rfl, h⟩
    · rintro ⟨a', ha, hf⟩
      cases ha
      exact hf

theorem map_eq_ok {x : Except ε α} {f : α → β} {b : β} :
    x.map f = .ok b ↔ ∃ a, x = .ok a ∧ f a = b := by
  cases x with
  | error e => simp [Except.map]
  | ok a => simp [Except.map]

/-- A computation that was run, and whose result was checked. -/
theorem exists_ok_of_any {x : Except ε α} {p : α → Bool} (h : x.toOption.any p = true) :
    ∃ a, x = .ok a ∧ p a = true := by
  cases x with
  | error e => cases h
  | ok a => exact ⟨a, rfl, h⟩

/-- A loop that returns has returned for every element. -/
theorem mapM_eq_ok {f : α → Except ε β} {xs : List α} {ys : List β} :
    xs.mapM f = .ok ys ↔ List.Forall₂ (fun x y => f x = .ok y) xs ys := by
  induction xs generalizing ys with
  | nil =>
    rw [List.mapM_nil, List.forall₂_nil_left_iff]
    exact ⟨fun h => (Except.ok.inj h).symm, fun h => by rw [h]; rfl⟩
  | cons x xs ih =>
    rw [List.mapM_cons, bind_eq_ok, List.forall₂_cons_left_iff]
    constructor
    · rintro ⟨y, hy, h⟩
      obtain ⟨zs, hzs, he⟩ := bind_eq_ok.mp h
      exact ⟨y, zs, hy, ih.mp hzs, (Except.ok.inj he).symm⟩
    · rintro ⟨y, zs, hy, hzs, rfl⟩
      exact ⟨y, hy, bind_eq_ok.mpr ⟨zs, ih.mpr hzs, rfl⟩⟩

/-- Every result of a loop comes from an element. -/
theorem mem_of_mapM {f : α → Except ε β} {xs : List α} {ys : List β} (h : xs.mapM f = .ok ys)
    {y : β} (hy : y ∈ ys) : ∃ x ∈ xs, f x = .ok y := by
  have hall := mapM_eq_ok.mp h
  clear h
  induction hall with
  | nil => cases hy
  | @cons x y' xs ys hx _ ih =>
    rcases List.mem_cons.mp hy with rfl | hy
    · exact ⟨x, List.mem_cons_self, hx⟩
    · obtain ⟨z, hz, hf⟩ := ih hy
      exact ⟨z, List.mem_cons_of_mem x hz, hf⟩

/-- Every element of a loop that returns has a result. -/
theorem mapM_of_mem {f : α → Except ε β} {xs : List α} {ys : List β} (h : xs.mapM f = .ok ys)
    {x : α} (hx : x ∈ xs) : ∃ y ∈ ys, f x = .ok y := by
  have hall := mapM_eq_ok.mp h
  clear h
  induction hall with
  | nil => cases hx
  | @cons x' y xs ys hf _ ih =>
    rcases List.mem_cons.mp hx with rfl | hx
    · exact ⟨y, List.mem_cons_self, hf⟩
    · obtain ⟨z, hz, hf'⟩ := ih hx
      exact ⟨z, List.mem_cons_of_mem y hz, hf'⟩

/-! ## Partial functions -/

/-- The computation returns exactly where `P` holds, and it returns `g` there. -/
def Computes (f : α → Except ε β) (P : α → Prop) (g : α → β) : Prop :=
  ∀ x y, f x = .ok y ↔ P x ∧ y = g x

theorem Computes.ok {f : α → Except ε β} {P : α → Prop} {g : α → β} (h : Computes f P g) {x : α}
    (hx : P x) : f x = .ok (g x) :=
  (h x (g x)).mpr ⟨hx, rfl⟩

theorem Computes.map {γ : Type} {f : α → Except ε β} {P : α → Prop} {g : α → β}
    (h : Computes f P g) (k : β → γ) : Computes (fun x => (f x).map k) P fun x => k (g x) := by
  intro x z
  rw [map_eq_ok]
  constructor
  · rintro ⟨y, hy, rfl⟩
    obtain ⟨hP, rfl⟩ := (h x y).mp hy
    exact ⟨hP, rfl⟩
  · rintro ⟨hP, rfl⟩
    exact ⟨g x, h.ok hP, rfl⟩

/-- A loop computes when its body does. It is enough that the body does for the elements. -/
theorem computes_mapM {f : α → Except ε β} {P : α → Prop} {g : α → β} {xs : List α}
    (h : ∀ x ∈ xs, ∀ y, f x = .ok y ↔ P x ∧ y = g x) (ys : List β) :
    xs.mapM f = .ok ys ↔ (∀ x ∈ xs, P x) ∧ ys = xs.map g := by
  induction xs generalizing ys with
  | nil =>
    rw [List.mapM_nil]
    exact ⟨fun he => ⟨List.forall_mem_nil _, (Except.ok.inj he).symm⟩, fun he => by rw [he.2]; rfl⟩
  | cons x xs ih =>
    have hxs := ih fun z hz => h z (List.mem_cons_of_mem x hz)
    rw [List.mapM_cons, bind_eq_ok, List.forall_mem_cons, List.map_cons]
    constructor
    · rintro ⟨y, hy, hrest⟩
      obtain ⟨zs, hzs, he⟩ := bind_eq_ok.mp hrest
      obtain ⟨hP, rfl⟩ := (h x List.mem_cons_self y).mp hy
      obtain ⟨hall, rfl⟩ := (hxs zs).mp hzs
      exact ⟨⟨hP, hall⟩, (Except.ok.inj he).symm⟩
    · rintro ⟨⟨hP, hall⟩, rfl⟩
      exact ⟨g x, (h x List.mem_cons_self _).mpr ⟨hP, rfl⟩,
        bind_eq_ok.mpr ⟨xs.map g, (hxs _).mpr ⟨hall, rfl⟩, rfl⟩⟩

theorem Computes.mapM {f : α → Except ε β} {P : α → Prop} {g : α → β} (h : Computes f P g) :
    Computes (List.mapM f) (fun xs => ∀ x ∈ xs, P x) (List.map g) :=
  fun _ ys => computes_mapM (fun x _ y => h x y) ys

/-! ## Failures -/

/-- The error of a computation that fails. -/
def failure (x : Except ε α) : Option ε :=
  match x with
  | .error e => some e
  | .ok _ => none

theorem failure_eq_some {x : Except ε α} {e : ε} : failure x = some e ↔ x = .error e := by
  cases x with
  | error e' => simp [failure]
  | ok a => simp [failure]

/-- The computation fails with an error in `E` only. -/
def FailsWith (f : α → Except ε β) (E : ε → Prop) : Prop := ∀ x e, f x = .error e → E e

theorem bind_eq_error {x : Except ε α} {f : α → Except ε β} {e : ε} :
    x >>= f = .error e ↔ x = .error e ∨ ∃ a, x = .ok a ∧ f a = .error e := by
  cases x with
  | error e' =>
    constructor
    · intro h
      cases h
      exact Or.inl rfl
    · rintro (h | ⟨a, ha, -⟩)
      · cases h
        rfl
      · cases ha
  | ok a =>
    constructor
    · intro h
      exact Or.inr ⟨a, rfl, h⟩
    · rintro (h | ⟨a', ha, h⟩)
      · cases h
      · cases ha
        exact h

theorem FailsWith.map {γ : Type} {f : α → Except ε β} {E : ε → Prop} (h : FailsWith f E)
    (k : β → γ) : FailsWith (fun x => (f x).map k) E := by
  intro x e he
  cases hf : f x with
  | error e' =>
    simp only [hf, Except.map] at he
    cases he
    exact h x e hf
  | ok y => simp [hf, Except.map] at he

theorem failsWith_mapM {f : α → Except ε β} {E : ε → Prop} {xs : List α}
    (h : ∀ x ∈ xs, ∀ e, f x = .error e → E e) {e : ε} (he : xs.mapM f = .error e) : E e := by
  induction xs with
  | nil =>
    rw [List.mapM_nil] at he
    cases he
  | cons x xs ih =>
    rw [List.mapM_cons] at he
    rcases bind_eq_error.mp he with he | ⟨y, -, he⟩
    · exact h x List.mem_cons_self e he
    · rcases bind_eq_error.mp he with he | ⟨ys, -, he⟩
      · exact ih (fun z hz => h z (List.mem_cons_of_mem x hz)) he
      · cases he

theorem FailsWith.mapM {f : α → Except ε β} {E : ε → Prop} (h : FailsWith f E) :
    FailsWith (List.mapM f) E :=
  fun _ _ he => failsWith_mapM (fun x _ e' he' => h x e' he') he

end ZephyrRust.Lib.Fallible
