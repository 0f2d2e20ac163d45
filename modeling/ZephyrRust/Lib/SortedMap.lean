import Mathlib.Data.List.Basic
import Mathlib.Order.Defs.LinearOrder
import Mathlib.Order.Compare
import Mathlib.Order.Lattice

/-!
# `ZephyrRust.Lib.SortedMap`: binary search, and maps as sorted lists

`Search` is a search for the place of a target in a list, with what a binary search promises:
in a list that the comparator does not order, the result is unspecified. `Search.halving` is the
usual loop.

A map is a list of entries with strictly growing keys (`Sorted`), and `List.lookup` is its meaning.
A comparison of the keys with one key orders such a list, so the result of a search splits it
(`Search.split_of_ok`, `Search.split_of_error`). A value at the split keeps the order
(`Split.sorted`), and `Split.lookup` is what it does to the meaning.
-/

set_option autoImplicit false

namespace ZephyrRust.Lib

section
variable {α : Type}

/-- The comparator `f` orders the list: first the elements below the target, then those at the
target, then those above. -/
def Ascending (f : α → Ordering) (l : List α) : Prop :=
  l.Pairwise fun a b => (f a = .gt → f b = .gt) ∧ (f b = .lt → f a = .lt)

/-- Everything before `i` is below the target, and everything from `i` on is above. -/
structure Gap (f : α → Ordering) (l : List α) (i : Nat) : Prop where
  le : i ≤ l.length
  below : ∀ a ∈ l.take i, f a = .lt
  above : ∀ a ∈ l.drop i, f a = .gt

variable (α) in
/-- A search by a comparator: the index of an element at the target, or else the index where an
element at the target belongs. -/
structure Search where
  run : List α → (α → Ordering) → Except Nat Nat
  ok : ∀ l f i, Ascending f l → run l f = .ok i → ∃ a, l[i]? = some a ∧ f a = .eq
  error : ∀ l f i, Ascending f l → run l f = .error i → Gap f l i

/-- The loop: the interval of `size` elements from `base` on, halved until one element is left. -/
def halve (l : List α) (f : α → Ordering) (base size : Nat) : Nat :=
  if size ≤ 1 then base
  else
    let mid := base + size / 2
    halve l f (if l[mid]?.map f = some .gt then base else mid) (size - size / 2)
termination_by size
decreasing_by omega

variable {l : List α} {f : α → Ordering} {base size i : Nat}

/-- What follows an element above the target is above the target. -/
theorem Ascending.above_drop {a : α} (h : Ascending f l) (ha : l[i]? = some a) (hgt : f a = .gt) :
    ∀ b ∈ l.drop i, f b = .gt := by
  intro b hb
  obtain ⟨j, hj, rfl⟩ := List.mem_drop_iff_getElem.mp hb
  obtain ⟨hi, rfl⟩ := List.getElem?_eq_some_iff.mp ha
  cases j with
  | zero => simpa using hgt
  | succ j => exact (List.pairwise_iff_getElem.mp h i (i + (j + 1)) hi (by omega)
      (by omega)).1 hgt

/-- What precedes an element below the target is below the target. -/
theorem Ascending.below_take {a : α} (h : Ascending f l) (ha : l[i]? = some a) (hlt : f a = .lt) :
    ∀ b ∈ l.take (i + 1), f b = .lt := by
  intro b hb
  obtain ⟨j, hj, rfl⟩ := List.mem_take_iff_getElem.mp hb
  obtain ⟨hi, rfl⟩ := List.getElem?_eq_some_iff.mp ha
  cases Nat.lt_or_ge j i with
  | inl hji => exact (List.pairwise_iff_getElem.mp h j i (by omega) hi hji).2 hlt
  | inr hij =>
    have hji : j = i := by omega
    subst hji
    exact hlt

/-- The invariant of the loop: everything above the interval is above the target, and the interval
starts at 0 or at an element that is not above the target. -/
structure Interval (l : List α) (f : α → Ordering) (base size : Nat) : Prop where
  pos : 0 < size
  le : base + size ≤ l.length
  low : base = 0 ∨ ∀ a, l[base]? = some a → f a ≠ .gt
  high : ∀ a ∈ l.drop (base + size), f a = .gt

/-- The loop ends with an interval of one element. -/
theorem halve_interval (hl : Ascending f l) (h : Interval l f base size) :
    Interval l f (halve l f base size) 1 := by
  fun_induction halve l f base size with
  | case1 base size hsize =>
    have hone : size = 1 := by
      have := h.pos
      omega
    rwa [hone] at h
  | case2 base size hsize mid ih =>
    have hmid : mid = base + size / 2 := rfl
    have hle := h.le
    apply ih
    have hlt : mid < l.length := by omega
    have ha : l[mid]? = some l[mid] := List.getElem?_eq_getElem hlt
    simp only [ha, Option.map_some, Option.some_inj]
    split
    · -- The base stays, and the element in the middle bounds what is dropped.
      rename_i hgt
      refine ⟨by omega, by omega, h.low, fun b hb => ?_⟩
      have hdrop : l.drop (base + (size - size / 2)) <:+ l.drop mid :=
        List.drop_suffix_drop_left l (by omega)
      exact hl.above_drop ha hgt b (hdrop.mem hb)
    · -- The middle is the new base.
      rename_i hgt
      refine ⟨by omega, by omega, .inr fun b hb => ?_, ?_⟩
      · rw [ha] at hb
        cases hb
        exact hgt
      · rw [show mid + (size - size / 2) = base + size by omega]
        exact h.high

/-- The search of `core`: the loop, and a comparison at its end. -/
def Search.halving : Search α where
  run l f :=
    match l[halve l f 0 l.length]? with
    | none => .error 0
    | some a =>
      match f a with
      | .lt => .error (halve l f 0 l.length + 1)
      | .eq => .ok (halve l f 0 l.length)
      | .gt => .error (halve l f 0 l.length)
  ok l f i hl h := by
    split at h
    · cases h
    · rename_i a ha
      split at h
      · cases h
      · cases h
        exact ⟨a, ha, ‹_›⟩
      · cases h
  error l f i hl h := by
    cases Nat.eq_zero_or_pos l.length with
    | inl hnil =>
      have : l = [] := List.length_eq_zero_iff.mp hnil
      subst this
      cases h
      exact ⟨Nat.le_refl _, by simp, by simp⟩
    | inr hpos =>
      have hstart : Interval l f 0 l.length := ⟨hpos, by omega, .inl rfl, by simp⟩
      have hend := halve_interval hl hstart
      have hle := hend.le
      split at h
      · rename_i hnone
        rw [List.getElem?_eq_none_iff] at hnone
        omega
      · rename_i a ha
        split at h
        · rename_i hlt
          cases h
          exact ⟨hle, hl.below_take ha hlt, hend.high⟩
        · cases h
        · rename_i hgt
          cases h
          -- A base that has moved is not above the target.
          have hzero : halve l f 0 l.length = 0 := by
            cases hend.low with
            | inl h => exact h
            | inr h => exact absurd hgt (h a ha)
          rw [hzero] at ha ⊢
          exact ⟨Nat.zero_le _, by simp, hl.above_drop ha hgt⟩

end

/-! ## Sorted lists as maps -/

section
variable {κ V : Type} [LinearOrder κ] {m low high : List (κ × V)} {k k' : κ} {v v' : V} {i : Nat}

/-- The keys grow strictly. -/
def Sorted (m : List (κ × V)) : Prop := m.Pairwise fun a b => a.1 < b.1

theorem Sorted.nil : Sorted ([] : List (κ × V)) := List.Pairwise.nil

/-- A sorted list has one entry for a key. -/
theorem Sorted.nodup (h : Sorted m) : (m.map Prod.fst).Nodup :=
  List.pairwise_map.mpr (h.imp fun hlt => ne_of_lt hlt)

/-- A key has an entry exactly when it has a value. -/
theorem mem_keys_iff : k ∈ m.map Prod.fst ↔ (m.lookup k).isSome := by
  rw [List.lookup_isSome_iff, List.mem_map]
  constructor
  · intro ⟨e, he, hk⟩
    exact ⟨e, he, beq_iff_eq.mpr hk.symm⟩
  · intro ⟨e, he, hk⟩
    exact ⟨e, he, (beq_iff_eq.mp hk).symm⟩

/-- The place of an entry beside a key. -/
def beside (k : κ) (e : κ × V) : Ordering := compare e.1 k

theorem Sorted.ascending (h : Sorted m) (k : κ) : Ascending (beside k) m := by
  refine h.imp fun {a b} hlt => ⟨fun hgt => ?_, fun hb => ?_⟩
  · exact compare_gt_iff_gt.mpr ((compare_gt_iff_gt.mp hgt).trans hlt)
  · exact compare_lt_iff_lt.mpr (hlt.trans (compare_lt_iff_lt.mp hb))

/-- The two sides of a list at the key `k`. -/
structure Split (k : κ) (low high : List (κ × V)) : Prop where
  low : ∀ e ∈ low, e.1 < k
  high : ∀ e ∈ high, k < e.1

/-- A search that ends with `Ok` found the entry of the key. -/
theorem Search.split_of_ok (search : Search (κ × V)) (h : Sorted m)
    (hrun : search.run m (beside k) = .ok i) :
    ∃ low v high, m = low ++ (k, v) :: high ∧ i = low.length ∧ Split k low high := by
  obtain ⟨e, he, heq⟩ := search.ok m (beside k) i (h.ascending k) hrun
  obtain ⟨hi, rfl⟩ := List.getElem?_eq_some_iff.mp he
  have hkey : m[i].1 = k := compare_eq_iff_eq.mp heq
  have hm : m = m.take i ++ m[i] :: m.drop (i + 1) := by
    rw [← List.drop_eq_getElem_cons hi, List.take_append_drop]
  have hcut := h
  rw [hm] at hcut
  obtain ⟨-, hhigh, hlow⟩ := List.pairwise_append.mp hcut
  refine ⟨m.take i, m[i].2, m.drop (i + 1), ?_, ?_, fun e he => ?_, fun e he => ?_⟩
  · rw [← hkey]
    exact hm
  · rw [List.length_take]
    omega
  · rw [← hkey]
    exact hlow e he m[i] List.mem_cons_self
  · rw [← hkey]
    exact List.rel_of_pairwise_cons hhigh he

/-- A search that ends with `Err` found the place of the key. -/
theorem Search.split_of_error (search : Search (κ × V)) (h : Sorted m)
    (hrun : search.run m (beside k) = .error i) :
    ∃ low high, m = low ++ high ∧ i = low.length ∧ Split k low high := by
  have hgap := search.error m (beside k) i (h.ascending k) hrun
  refine ⟨m.take i, m.drop i, (List.take_append_drop i m).symm, ?_, fun e he => ?_, fun e he => ?_⟩
  · rw [List.length_take]
    have := hgap.le
    omega
  · exact compare_lt_iff_lt.mp (hgap.below e he)
  · exact compare_gt_iff_gt.mp (hgap.above e he)

namespace Split

/-- The key has no entry on either side. -/
theorem lookup_self (h : Split k low high) : (low ++ high).lookup k = none := by
  rw [List.lookup_eq_none_iff]
  intro e he
  cases List.mem_append.mp he with
  | inl hlow => simpa using (h.low e hlow).ne'
  | inr hhigh => simpa using (h.high e hhigh).ne

/-- An entry at the split gives its key a value, and leaves the values of the other keys. -/
theorem lookup (h : Split k low high) :
    (low ++ (k, v) :: high).lookup k' = if k' = k then some v else (low ++ high).lookup k' := by
  have hlow : low.lookup k = none := by
    rw [List.lookup_eq_none_iff]
    intro e he
    simpa using (h.low e he).ne'
  rw [List.lookup_append, List.lookup_append, List.lookup_cons]
  by_cases hk : k' = k
  · subst hk
    simp [hlow]
  · rw [beq_false_of_ne hk, if_neg hk]

/-- A value at the split keeps the order. -/
theorem sorted (h : Split k low high) (hm : Sorted (low ++ high)) :
    Sorted (low ++ (k, v) :: high) := by
  obtain ⟨hlow, hhigh, hcross⟩ := List.pairwise_append.mp hm
  have hright : ((k, v) :: high).Pairwise fun a b => a.1 < b.1 :=
    List.pairwise_cons.mpr ⟨h.high, hhigh⟩
  refine List.pairwise_append.mpr ⟨hlow, hright, fun a ha b hb => ?_⟩
  cases List.mem_cons.mp hb with
  | inl heq =>
    rw [heq]
    exact h.low a ha
  | inr hb => exact hcross a ha b hb

end Split

/-- An element inserted after the first part of a list. -/
theorem insertIdx_length_append {α : Type} (l₁ l₂ : List α) (a : α) :
    (l₁ ++ l₂).insertIdx l₁.length a = l₁ ++ a :: l₂ := by
  induction l₁ with
  | nil => exact List.insertIdx_zero
  | cons b l₁ ih =>
    rw [List.cons_append, List.length_cons, List.insertIdx_succ_cons, ih, List.cons_append]

/-- Without one of its entries, a list is still sorted. -/
theorem Sorted.remove (h : Sorted (low ++ (k, v) :: high)) : Sorted (low ++ high) :=
  List.Pairwise.sublist (List.Sublist.append_left (List.sublist_cons_self _ _) low) h

end

end ZephyrRust.Lib
