import Mathlib.Data.List.Basic

/-!
# `ZephyrRust.Lib.Regex`: regular expressions with groups

Regular expressions as the `regex` crate matches them. Of two alternatives the left one is tried
first, and a repetition first takes as many characters as it can. `run` lists the ways to match a
prefix of a text in this order, each with the texts of the groups and with the rest of the text. For
an expression between `^` and `$`, the first way that leaves nothing is the match of the crate. This
is `captures`.

`Matches` says what an expression can match, in no order. `mem_run_iff` connects the two. A text
that can be matched in one way only has this way as its match (`captures_eq_some`), so the order is
of no importance for it.
-/

set_option autoImplicit false

namespace ZephyrRust.Lib

/-- A regular expression. -/
inductive Regex
  /-- A text. -/
  | lit (t : List Char)
  /-- A character with `p`. -/
  | sat (p : Char → Bool)
  /-- One after the other. -/
  | seq (a b : Regex)
  /-- `a|b` -/
  | alt (a b : Regex)
  /-- `p*`, as many characters as it can. -/
  | star (p : Char → Bool)
  /-- `(a)` -/
  | group (a : Regex)

namespace Regex

/-- The ways of a repetition, the longest one first. -/
def runStar (p : Char → Bool) : List Char → List (List (List Char) × List Char)
  | [] => [([], [])]
  | c :: s => if p c then runStar p s ++ [([], c :: s)] else [([], c :: s)]

/-- The ways to match a prefix of a text: the texts of the groups, and the rest. -/
def run : Regex → List Char → List (List (List Char) × List Char)
  | lit t, s => if t.isPrefixOf s then [([], s.drop t.length)] else []
  | sat _, [] => []
  | sat p, c :: s => if p c then [([], s)] else []
  | seq a b, s => (run a s).flatMap fun x => (run b x.2).map fun y => (x.1 ++ y.1, y.2)
  | alt a b, s => run a s ++ run b s
  | star p, s => runStar p s
  | group a, s => (run a s).map fun x => (s.take (s.length - x.2.length) :: x.1, x.2)

/-- The groups of `^a$`. -/
def captures (a : Regex) (s : List Char) : Option (List (List Char)) :=
  ((a.run s).find? fun x => x.2.isEmpty).map Prod.fst

/-- The expression can match the text with these groups. -/
inductive Matches : Regex → List Char → List (List Char) → Prop
  | lit (t : List Char) : Matches (lit t) t []
  | sat {p : Char → Bool} {c : Char} (hc : p c = true) : Matches (sat p) [c] []
  | seq {a b : Regex} {s t : List Char} {x y : List (List Char)} (ha : Matches a s x)
      (hb : Matches b t y) : Matches (seq a b) (s ++ t) (x ++ y)
  | altLeft {a b : Regex} {s : List Char} {x : List (List Char)} (h : Matches a s x) :
      Matches (alt a b) s x
  | altRight {a b : Regex} {s : List Char} {x : List (List Char)} (h : Matches b s x) :
      Matches (alt a b) s x
  | star {p : Char → Bool} {t : List Char} (ht : ∀ c ∈ t, p c = true) : Matches (star p) t []
  | group {a : Regex} {s : List Char} {x : List (List Char)} (h : Matches a s x) :
      Matches (group a) s (s :: x)

/-! ## What each expression matches -/

section

variable {a b : Regex} {p : Char → Bool} {s t : List Char} {x : List (List Char)}

@[simp] theorem matches_lit : Matches (.lit t) s x ↔ s = t ∧ x = [] := by
  constructor
  · intro h
    cases h
    exact ⟨rfl, rfl⟩
  · intro ⟨hs, hx⟩
    rw [hs, hx]
    exact .lit t

@[simp] theorem matches_sat : Matches (.sat p) s x ↔ (∃ c, p c = true ∧ s = [c]) ∧ x = [] := by
  constructor
  · intro h
    cases h with
    | sat hc => exact ⟨⟨_, hc, rfl⟩, rfl⟩
  · intro ⟨⟨c, hc, hs⟩, hx⟩
    rw [hs, hx]
    exact .sat hc

@[simp] theorem matches_seq :
    Matches (.seq a b) s x ↔
      ∃ t u, s = t ++ u ∧ ∃ y z, Matches a t y ∧ Matches b u z ∧ x = y ++ z := by
  constructor
  · intro h
    cases h with
    | seq ha hb => exact ⟨_, _, rfl, _, _, ha, hb, rfl⟩
  · intro ⟨t, u, hs, y, z, ha, hb, hx⟩
    rw [hs, hx]
    exact .seq ha hb

@[simp] theorem matches_alt : Matches (.alt a b) s x ↔ Matches a s x ∨ Matches b s x := by
  constructor
  · intro h
    cases h with
    | altLeft h => exact .inl h
    | altRight h => exact .inr h
  · intro h
    cases h with
    | inl h => exact .altLeft h
    | inr h => exact .altRight h

@[simp] theorem matches_star :
    Matches (.star p) s x ↔ (∀ c ∈ s, p c = true) ∧ x = [] := by
  constructor
  · intro h
    cases h with
    | star ht => exact ⟨ht, rfl⟩
  · intro ⟨ht, hx⟩
    rw [hx]
    exact .star ht

@[simp] theorem matches_group :
    Matches (.group a) s x ↔ ∃ y, Matches a s y ∧ x = s :: y := by
  constructor
  · intro h
    cases h with
    | group h => exact ⟨_, h, rfl⟩
  · intro ⟨y, h, hx⟩
    rw [hx]
    exact .group h

end

/-! ## The order is one of all matches -/

theorem mem_runStar_iff {p : Char → Bool} {s r : List Char} {x : List (List Char)} :
    (x, r) ∈ runStar p s ↔ ∃ t, s = t ++ r ∧ (∀ c ∈ t, p c = true) ∧ x = [] := by
  induction s with
  | nil =>
    rw [runStar, List.mem_singleton, Prod.mk.injEq]
    constructor
    · intro ⟨hx, hr⟩
      exact ⟨[], hr.symm, List.forall_mem_nil _, hx⟩
    · intro ⟨t, hs, _, hx⟩
      exact ⟨hx, (List.append_eq_nil_iff.mp hs.symm).2⟩
  | cons c s ih =>
    -- Either nothing is taken, or `c` is the first character that is taken.
    have hsplit : (∃ t, c :: s = t ++ r ∧ (∀ d ∈ t, p d = true) ∧ x = []) ↔
        r = c :: s ∧ x = [] ∨ p c = true ∧ ∃ t, s = t ++ r ∧ (∀ d ∈ t, p d = true) ∧ x = [] := by
      constructor
      · intro ⟨t, hs, ht, hx⟩
        cases t with
        | nil => exact .inl ⟨hs.symm, hx⟩
        | cons d t =>
          obtain ⟨rfl, hrest⟩ := List.cons.inj hs
          obtain ⟨hd, ht⟩ := List.forall_mem_cons.mp ht
          exact .inr ⟨hd, t, hrest, ht, hx⟩
      · intro h
        cases h with
        | inl h => exact ⟨[], h.1.symm, List.forall_mem_nil _, h.2⟩
        | inr h =>
          obtain ⟨hc, t, hs, ht, hx⟩ := h
          exact ⟨c :: t, congrArg (List.cons c) hs, List.forall_mem_cons.mpr ⟨hc, ht⟩, hx⟩
    rw [hsplit, runStar]
    split
    · rename_i hc
      rw [List.mem_append, ih, List.mem_singleton, Prod.mk.injEq, and_iff_right hc, or_comm,
        and_comm]
    · rename_i hc
      rw [List.mem_singleton, Prod.mk.injEq, and_comm]
      exact (or_iff_left fun h => hc h.1).symm

/-- The ways in the list are the matches of the prefixes. -/
theorem mem_run_iff {a : Regex} {s r : List Char} {x : List (List Char)} :
    (x, r) ∈ a.run s ↔ ∃ t, s = t ++ r ∧ Matches a t x := by
  induction a generalizing s r x with
  | lit t =>
    have hlit : (∃ u, s = u ++ r ∧ Matches (.lit t) u x) ↔ x = [] ∧ s = t ++ r := by
      simp only [matches_lit]
      constructor
      · intro ⟨u, hs, hu, hx⟩
        exact ⟨hx, hu ▸ hs⟩
      · intro ⟨hx, hs⟩
        exact ⟨t, hs, rfl, hx⟩
    rw [hlit, run]
    split
    · rename_i h
      obtain ⟨u, rfl⟩ := List.isPrefixOf_iff_prefix.mp h
      rw [List.mem_singleton, Prod.mk.injEq, List.drop_left, List.append_right_inj,
        eq_comm (a := r)]
    · rename_i h
      constructor
      · intro hmem
        cases hmem
      · intro ⟨_, hs⟩
        exact absurd (List.isPrefixOf_iff_prefix.mpr ⟨r, hs.symm⟩) h
  | sat p =>
    have hfirst : (∃ t, s = t ++ r ∧ Matches (.sat p) t x) ↔
        ∃ c, p c = true ∧ x = [] ∧ s = c :: r := by
      simp only [matches_sat]
      constructor
      · intro ⟨t, hs, ⟨c, hc, ht⟩, hx⟩
        rw [ht] at hs
        exact ⟨c, hc, hx, hs⟩
      · intro ⟨c, hc, hx, hs⟩
        exact ⟨[c], hs, ⟨c, hc, rfl⟩, hx⟩
    rw [hfirst]
    cases s with
    | nil =>
      constructor
      · intro hmem
        cases hmem
      · intro ⟨c, _, _, hs⟩
        cases hs
    | cons c s =>
      rw [run]
      constructor
      · intro hmem
        split at hmem
        · rename_i hc
          cases List.mem_singleton.mp hmem
          exact ⟨c, hc, rfl, rfl⟩
        · cases hmem
      · intro ⟨d, hd, hx, hs⟩
        cases hs
        rw [if_pos hd, hx]
        exact List.mem_singleton_self _
  | seq a b iha ihb =>
    rw [run, List.mem_flatMap]
    constructor
    · intro ⟨⟨y, r₁⟩, hy, hmem⟩
      obtain ⟨⟨z, r₂⟩, hz, he⟩ := List.mem_map.mp hmem
      cases he
      obtain ⟨t, rfl, ha⟩ := iha.mp hy
      obtain ⟨u, rfl, hb⟩ := ihb.mp hz
      exact ⟨t ++ u, (List.append_assoc t u _).symm, .seq ha hb⟩
    · intro ⟨tu, hs, h⟩
      obtain ⟨t, u, rfl, y, z, ha, hb, rfl⟩ := matches_seq.mp h
      refine ⟨(y, u ++ r), iha.mpr ⟨t, by rw [hs, List.append_assoc], ha⟩, ?_⟩
      exact List.mem_map.mpr ⟨(z, r), ihb.mpr ⟨u, rfl, hb⟩, rfl⟩
  | alt a b iha ihb =>
    rw [run, List.mem_append, iha, ihb]
    simp only [matches_alt]
    constructor
    · intro h
      cases h with
      | inl h =>
        obtain ⟨t, hs, ha⟩ := h
        exact ⟨t, hs, .inl ha⟩
      | inr h =>
        obtain ⟨t, hs, hb⟩ := h
        exact ⟨t, hs, .inr hb⟩
    · intro ⟨t, hs, h⟩
      cases h with
      | inl ha => exact .inl ⟨t, hs, ha⟩
      | inr hb => exact .inr ⟨t, hs, hb⟩
  | star p =>
    rw [run, mem_runStar_iff]
    simp only [matches_star]
  | group a ih =>
    rw [run, List.mem_map]
    constructor
    · intro ⟨⟨y, r₁⟩, hy, he⟩
      cases he
      obtain ⟨t, rfl, ha⟩ := ih.mp hy
      refine ⟨t, rfl, ?_⟩
      have htake : (t ++ r₁).take ((t ++ r₁).length - r₁.length) = t := by
        rw [List.length_append, Nat.add_sub_cancel]
        exact List.take_left
      simp only [htake]
      exact .group ha
    · intro ⟨t, hs, h⟩
      obtain ⟨y, ha, rfl⟩ := matches_group.mp h
      refine ⟨(y, r), ih.mpr ⟨t, hs, ha⟩, ?_⟩
      rw [hs, List.length_append, Nat.add_sub_cancel, List.take_left]

/-! ## Captures -/

section

variable {a : Regex} {s : List Char} {x : List (List Char)}

/-- The match of the crate is a match. -/
theorem matches_of_captures (h : a.captures s = some x) : Matches a s x := by
  obtain ⟨⟨y, r⟩, hfind, rfl⟩ := Option.map_eq_some_iff.mp h
  obtain ⟨t, hs, hy⟩ := mem_run_iff.mp (List.mem_of_find?_eq_some hfind)
  have hempty := List.find?_some hfind
  have hr : r = [] := List.isEmpty_iff.mp hempty
  rw [hr, List.append_nil] at hs
  rw [hs]
  exact hy

/-- There is a match of the crate when there is any match. -/
theorem exists_captures (h : Matches a s x) : ∃ y, a.captures s = some y := by
  have hmem : (x, []) ∈ a.run s := mem_run_iff.mpr ⟨s, (List.append_nil s).symm, h⟩
  cases hc : a.captures s with
  | some y => exact ⟨y, rfl⟩
  | none =>
    have hnone := List.find?_eq_none.mp (Option.map_eq_none_iff.mp hc) (x, []) hmem
    exact absurd rfl hnone

/-- A text that can be matched in one way only. -/
theorem captures_eq_some (h : Matches a s x) (honly : ∀ y, Matches a s y → y = x) :
    a.captures s = some x := by
  obtain ⟨y, hy⟩ := exists_captures h
  rw [hy, honly y (matches_of_captures hy)]

theorem captures_eq_none (h : ∀ y, ¬Matches a s y) : a.captures s = none := by
  cases hc : a.captures s with
  | none => rfl
  | some y => exact absurd (matches_of_captures hc) (h y)

end

end Regex

end ZephyrRust.Lib
