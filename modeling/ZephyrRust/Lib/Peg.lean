import Mathlib.Data.List.Basic

/-!
# `ZephyrRust.Lib.Peg`: parsing expressions with implicit gaps

The parsing expressions of the `pest` crate as functions. A parser reads a prefix of its input. It
gives back the parse-tree nodes of the rules that it went through and the rest of the input, or
`none` when it does not match. Choice is ordered, and a repetition takes as much as it can and is
not taken back.

A grammar can have implicit gaps, that is whitespace and comments between the parts of a sequence
and of a repetition. The argument `w` of `seq`, `star` and `plus` is the function that drops a gap.
In an atomic rule there are no gaps, and `w` is the identity.

`rule` makes a node of what a parser has read. `atomic` does so without the nodes from inside.

The lemmas come in pairs, for an input that is read and for an input that is not. `Repeats` lists
the rounds of a repetition, and `star_eq` turns such a list into the result of `star`.
-/

set_option autoImplicit false

namespace ZephyrRust.Lib.Peg

/-- A node of the parse tree: the rule, the text that it has read and the nodes inside. -/
inductive Pair (R : Type)
  | mk (rule : R) (text : List Char) (inner : List (Pair R))

namespace Pair

variable {R : Type}

def rule : Pair R → R
  | mk rule _ _ => rule

def text : Pair R → List Char
  | mk _ text _ => text

def inner : Pair R → List (Pair R)
  | mk _ _ inner => inner

end Pair

/-- A parser: the nodes and the rest of the input, or `none`. -/
abbrev Parser (R : Type) := List Char → Option (List (Pair R) × List Char)

variable {R : Type}

/-- A string. -/
def lit (t : List Char) : Parser R := fun s =>
  if t.isPrefixOf s then some ([], s.drop t.length) else none

/-- A character with `p`. -/
def sat (p : Char → Bool) : Parser R
  | [] => none
  | c :: s => if p c then some ([], s) else none

/-- Any character. -/
def any : Parser R := sat fun _ => true

/-- `a ~ b`. -/
def seq (w : List Char → List Char) (a b : Parser R) : Parser R := fun s =>
  match a s with
  | none => none
  | some (x, r) =>
    match b (w r) with
    | none => none
    | some (y, r') => some (x ++ y, r')

/-- `a | b`. -/
def alt (a b : Parser R) : Parser R := fun s =>
  match a s with
  | some r => some r
  | none => b s

/-- `!a`. -/
def not (a : Parser R) : Parser R := fun s =>
  match a s with
  | some _ => none
  | none => some ([], s)

/-- The rounds of `a*` after the first one, at most `n` of them. A gap before a round that does not
match is not taken. -/
def many (w : List Char → List Char) (a : Parser R) :
    Nat → List Char → List (Pair R) × List Char
  | 0, s => ([], s)
  | n + 1, s =>
    match a (w s) with
    | none => ([], s)
    | some (x, r) => (x ++ (many w a n r).1, (many w a n r).2)

/-- `a*`. The rounds are bounded by the length of the input, because every round of a grammar that
`pest` accepts reads at least one character. -/
def star (w : List Char → List Char) (a : Parser R) : Parser R := fun s =>
  match a s with
  | none => some ([], s)
  | some (x, r) => some (x ++ (many w a r.length r).1, (many w a r.length r).2)

/-- `a+`, which is `a ~ a*`. -/
def plus (w : List Char → List Char) (a : Parser R) : Parser R := seq w a (star w a)

/-- The end of the input, which is a node. -/
def eoi (r : R) : Parser R
  | [] => some ([.mk r [] []], [])
  | _ :: _ => none

/-- The text that was read of `s` when `rest` is left. -/
def consumed (s rest : List Char) : List Char := s.take (s.length - rest.length)

/-- A rule that makes a node. -/
def rule (r : R) (a : Parser R) : Parser R := fun s =>
  (a s).map fun (x, rest) => ([.mk r (consumed s rest) x], rest)

/-- An atomic rule: it makes a node, and the rules inside make none. -/
def atomic (r : R) (a : Parser R) : Parser R := fun s =>
  (a s).map fun (_, rest) => ([.mk r (consumed s rest) []], rest)

/-! ## Strings and characters -/

@[simp] theorem lit_append (t s : List Char) : lit (R := R) t (t ++ s) = some ([], s) := by
  simp [lit]

@[simp] theorem lit_char (c : Char) (s : List Char) :
    lit (R := R) [c] (c :: s) = some ([], s) :=
  lit_append [c] s

/-- A string is not read when the input begins with another character. -/
theorem lit_none_of_ne {c d : Char} (t s : List Char) (h : d ≠ c) :
    lit (R := R) (c :: t) (d :: s) = none := by
  have hne : (c == d) = false := by simpa using Ne.symm h
  simp [lit, List.isPrefixOf, hne]

theorem sat_cons {p : Char → Bool} {c : Char} (h : p c = true) (s : List Char) :
    sat (R := R) p (c :: s) = some ([], s) := by
  simp [sat, h]

/-- What a string has read. -/
theorem lit_eq_some {t s r : List Char} {x : List (Pair R)} (h : lit t s = some (x, r)) :
    x = [] ∧ s = t ++ r := by
  unfold lit at h
  split at h
  · rename_i hstarts
    obtain ⟨r', rfl⟩ := List.isPrefixOf_iff_prefix.mp hstarts
    rw [List.drop_left] at h
    cases h
    exact ⟨rfl, rfl⟩
  · cases h

/-- What a character has read. -/
theorem sat_eq_some {p : Char → Bool} {s r : List Char} {x : List (Pair R)}
    (h : sat p s = some (x, r)) : x = [] ∧ ∃ c, p c = true ∧ s = c :: r := by
  cases s with
  | nil => cases h
  | cons c s =>
    by_cases hc : p c = true
    · rw [sat, if_pos hc] at h
      cases h
      exact ⟨rfl, c, hc, rfl⟩
    · rw [sat, if_neg hc] at h
      cases h

/-- The input does not begin with a character with `p`. -/
def Stops (p : Char → Bool) : List Char → Prop
  | [] => True
  | c :: _ => p c = false

/-- Fewer characters stop earlier. -/
theorem Stops.mono {p q : Char → Bool} {s : List Char} (h : Stops q s)
    (hpq : ∀ c, p c = true → q c = true) : Stops p s := by
  cases s with
  | nil => trivial
  | cons c s =>
    show p c = false
    cases hc : p c with
    | false => rfl
    | true =>
      have hq : q c = false := h
      rw [hpq c hc] at hq
      cases hq

theorem sat_none {p : Char → Bool} {s : List Char} (h : Stops p s) :
    sat (R := R) p s = none := by
  cases s with
  | nil => rfl
  | cons c s =>
    have hc : p c = false := h
    simp [sat, hc]

/-! ## Sequences and choices -/

section

variable {w : List Char → List Char} {a b : Parser R} {s r r' : List Char}
variable {x y : List (Pair R)}

theorem seq_some (ha : a s = some (x, r)) (hb : b (w r) = some (y, r')) :
    seq w a b s = some (x ++ y, r') := by
  simp [seq, ha, hb]

theorem seq_none_left (ha : a s = none) : seq w a b s = none := by
  simp [seq, ha]

theorem seq_none_right (ha : a s = some (x, r)) (hb : b (w r) = none) :
    seq w a b s = none := by
  simp [seq, ha, hb]

/-- What a sequence has read. -/
theorem seq_eq_some (h : seq w a b s = some (x, r')) :
    ∃ y z r, a s = some (y, r) ∧ b (w r) = some (z, r') ∧ x = y ++ z := by
  unfold seq at h
  split at h
  · cases h
  · rename_i y r ha
    split at h
    · cases h
    · rename_i z r₂ hb
      cases h
      exact ⟨y, z, r, ha, hb, rfl⟩

theorem alt_left (ha : a s = some (x, r)) : alt a b s = some (x, r) := by
  simp [alt, ha]

theorem alt_right (ha : a s = none) : alt a b s = b s := by
  simp [alt, ha]

/-- What a choice has read. -/
theorem alt_eq_some (h : alt a b s = some (x, r)) :
    a s = some (x, r) ∨ a s = none ∧ b s = some (x, r) := by
  unfold alt at h
  split at h
  · rename_i r₀ ha
    rw [ha]
    exact Or.inl h
  · rename_i ha
    exact Or.inr ⟨ha, h⟩

theorem not_some (ha : a s = some (x, r)) : not a s = none := by
  simp [not, ha]

theorem not_none (ha : a s = none) : not a s = some ([], s) := by
  simp [not, ha]

end

/-! ## Repetitions -/

/-- The rounds of a repetition from `s` on: the nodes `x` and the rest `r`. The repetition ends where
no further round matches. -/
inductive Repeats (w : List Char → List Char) (a : Parser R) :
    List Char → List (Pair R) → List Char → Prop
  | done {s : List Char} (h : a (w s) = none) : Repeats w a s [] s
  | round {s r t : List Char} {x y : List (Pair R)} (h : a (w s) = some (x, r))
      (hlt : r.length < s.length) (ht : Repeats w a r y t) : Repeats w a s (x ++ y) t

section

variable {w : List Char → List Char} {a : Parser R}

/-- A bound that the input does not exceed is no restriction. -/
theorem Repeats.many_eq {s t : List Char} {x : List (Pair R)} (h : Repeats w a s x t) {n : Nat}
    (hn : s.length ≤ n) : many w a n s = (x, t) := by
  induction h generalizing n with
  | done h =>
    cases n with
    | zero => rfl
    | succ n => simp [many, h]
  | round h hlt ht ih =>
    cases n with
    | zero => omega
    | succ n =>
      have hrest := ih (n := n) (by omega)
      simp [many, h, hrest]

/-- A repetition whose first part does not match reads nothing. -/
theorem star_none {s : List Char} (h : a s = none) : star w a s = some ([], s) := by
  simp [star, h]

/-- A repetition with a first part and the rounds after it. -/
theorem star_eq {s r t : List Char} {x y : List (Pair R)} (h : a s = some (x, r))
    (hr : Repeats w a r y t) : star w a s = some (x ++ y, t) := by
  simp [star, h, hr.many_eq (Nat.le_refl r.length)]

/-- A repetition after a gap, as it stands in a sequence. It may have taken the gap at the end. -/
theorem Repeats.star_gap {s t : List Char} {x : List (Pair R)} (h : Repeats w a s x t)
    (hw : w (w t) = w t) : ∃ t', star w a (w s) = some (x, t') ∧ w t' = w t := by
  cases h with
  | done h => exact ⟨w s, star_none h, hw⟩
  | round h hlt ht => exact ⟨t, star_eq h ht, rfl⟩

/-- Without gaps, the first part is a round like the others. -/
theorem star_id_eq {s t : List Char} {x : List (Pair R)} (h : Repeats id a s x t) :
    star id a s = some (x, t) := by
  cases h with
  | done h => exact star_none h
  | round h hlt ht => exact star_eq h ht

end

/-- A repetition of characters reads all of them. -/
theorem repeats_sat {p : Char → Bool} {t s : List Char} (ht : ∀ c ∈ t, p c = true)
    (hs : Stops p s) : Repeats id (sat (R := R) p) (t ++ s) [] s := by
  induction t with
  | nil => exact .done (sat_none hs)
  | cons c t ih =>
    have hrest := ih fun d hd => ht d (List.mem_cons_of_mem c hd)
    have hfirst : sat (R := R) p (id (c :: (t ++ s))) = some ([], t ++ s) :=
      sat_cons (ht c List.mem_cons_self) (t ++ s)
    exact .round hfirst (Nat.lt_succ_self _) hrest

theorem star_sat {p : Char → Bool} {t s : List Char} (ht : ∀ c ∈ t, p c = true)
    (hs : Stops p s) : star (R := R) id (sat p) (t ++ s) = some ([], s) :=
  star_id_eq (repeats_sat ht hs)

/-- One character at least. -/
theorem plus_sat {p : Char → Bool} {t s : List Char} (hne : t ≠ []) (ht : ∀ c ∈ t, p c = true)
    (hs : Stops p s) : plus (R := R) id (sat p) (t ++ s) = some ([], s) := by
  cases t with
  | nil => exact absurd rfl hne
  | cons c t =>
    have hfirst : sat (R := R) p (c :: (t ++ s)) = some ([], t ++ s) :=
      sat_cons (ht c List.mem_cons_self) (t ++ s)
    exact seq_some hfirst (star_sat (fun d hd => ht d (List.mem_cons_of_mem c hd)) hs)

/-- What a repetition of characters has read. -/
theorem many_sat_eq {p : Char → Bool} (n : Nat) (s : List Char) :
    ∃ t, (∀ c ∈ t, p c = true) ∧ s = t ++ (many id (sat (R := R) p) n s).2 := by
  induction n generalizing s with
  | zero => exact ⟨[], List.forall_mem_nil _, rfl⟩
  | succ n ih =>
    cases s with
    | nil => exact ⟨[], List.forall_mem_nil _, rfl⟩
    | cons c s =>
      by_cases hc : p c = true
      · obtain ⟨t, ht, hs⟩ := ih s
        refine ⟨c :: t, List.forall_mem_cons.mpr ⟨hc, ht⟩, ?_⟩
        simp only [many, id, sat_cons hc, List.cons_append]
        exact congrArg (List.cons c) hs
      · refine ⟨[], List.forall_mem_nil _, ?_⟩
        simp [many, sat, hc]

theorem star_sat_eq_some {p : Char → Bool} {s r : List Char} {x : List (Pair R)}
    (h : star id (sat p) s = some (x, r)) : ∃ t, (∀ c ∈ t, p c = true) ∧ s = t ++ r := by
  cases s with
  | nil =>
    cases h
    exact ⟨[], List.forall_mem_nil _, rfl⟩
  | cons c s =>
    by_cases hc : p c = true
    · simp only [star, sat_cons hc] at h
      cases h
      obtain ⟨t, ht, hs⟩ := many_sat_eq (R := R) (p := p) s.length s
      exact ⟨c :: t, List.forall_mem_cons.mpr ⟨hc, ht⟩, congrArg (List.cons c) hs⟩
    · have hstop : sat (R := R) p (c :: s) = none := by simp [sat, hc]
      rw [star_none hstop] at h
      cases h
      exact ⟨[], List.forall_mem_nil _, rfl⟩

theorem plus_sat_eq_some {p : Char → Bool} {s r : List Char} {x : List (Pair R)}
    (h : plus id (sat p) s = some (x, r)) :
    ∃ t, t ≠ [] ∧ (∀ c ∈ t, p c = true) ∧ s = t ++ r := by
  obtain ⟨y, z, r₁, hfirst, hrest, -⟩ := seq_eq_some h
  cases s with
  | nil => cases hfirst
  | cons c s =>
    by_cases hc : p c = true
    · rw [sat_cons hc] at hfirst
      cases hfirst
      obtain ⟨t, ht, hs⟩ := star_sat_eq_some hrest
      refine ⟨c :: t, List.cons_ne_nil c t, List.forall_mem_cons.mpr ⟨hc, ht⟩, ?_⟩
      exact congrArg (List.cons c) hs
    · simp [sat, hc] at hfirst

/-! ## Rules -/

@[simp] theorem consumed_append (t s : List Char) : consumed (t ++ s) s = t := by
  simp [consumed]

theorem rule_of_some {r : R} {a : Parser R} {s rest : List Char} {x : List (Pair R)}
    (h : a s = some (x, rest)) : rule r a s = some ([.mk r (consumed s rest) x], rest) := by
  simp [rule, h]

theorem rule_some {r : R} {a : Parser R} {t s : List Char} {x : List (Pair R)}
    (h : a (t ++ s) = some (x, s)) : rule r a (t ++ s) = some ([.mk r t x], s) := by
  simp [rule, h]

theorem atomic_some {r : R} {a : Parser R} {t s : List Char} {x : List (Pair R)}
    (h : a (t ++ s) = some (x, s)) : atomic r a (t ++ s) = some ([.mk r t []], s) := by
  simp [atomic, h]

theorem rule_none {r : R} {a : Parser R} {s : List Char} (h : a s = none) :
    rule r a s = none := by
  simp [rule, h]

theorem atomic_none {r : R} {a : Parser R} {s : List Char} (h : a s = none) :
    atomic r a s = none := by
  simp [atomic, h]

/-- What a rule has read. -/
theorem rule_eq_some {r : R} {a : Parser R} {s rest : List Char} {x : List (Pair R)}
    (h : rule r a s = some (x, rest)) :
    ∃ y, a s = some (y, rest) ∧ x = [.mk r (consumed s rest) y] := by
  obtain ⟨⟨y, rest'⟩, hy, he⟩ := Option.map_eq_some_iff.mp h
  cases he
  exact ⟨y, hy, rfl⟩

theorem atomic_eq_some {r : R} {a : Parser R} {s rest : List Char} {x : List (Pair R)}
    (h : atomic r a s = some (x, rest)) :
    (∃ y, a s = some (y, rest)) ∧ x = [.mk r (consumed s rest) []] := by
  obtain ⟨⟨y, rest'⟩, hy, he⟩ := Option.map_eq_some_iff.mp h
  cases he
  exact ⟨⟨y, hy⟩, rfl⟩

/-! ## Nodes -/

/-- All nodes that a parser makes have `P`. -/
def Yields (P : Pair R → Prop) (a : Parser R) : Prop :=
  ∀ s x r, a s = some (x, r) → ∀ p ∈ x, P p

section

variable {P : Pair R → Prop} {w : List Char → List Char} {a b : Parser R}

theorem yields_lit (t : List Char) : Yields P (lit t) := by
  intro s x r h p hp
  unfold lit at h
  split at h
  · cases h
    cases hp
  · cases h

theorem Yields.seq (ha : Yields P a) (hb : Yields P b) : Yields P (seq w a b) := by
  intro s x r h p hp
  obtain ⟨y, z, r₁, hy, hz, rfl⟩ := seq_eq_some h
  rcases List.mem_append.mp hp with hp | hp
  · exact ha s y r₁ hy p hp
  · exact hb (w r₁) z r hz p hp

theorem Yields.alt (ha : Yields P a) (hb : Yields P b) : Yields P (alt a b) := by
  intro s x r h
  rcases alt_eq_some h with h | ⟨-, h⟩
  · exact ha s x r h
  · exact hb s x r h

/-- The nodes of a repetition come from its rounds. -/
theorem Yields.many (ha : Yields P a) (n : Nat) (s : List Char) :
    ∀ p ∈ (many w a n s).1, P p := by
  induction n generalizing s with
  | zero =>
    intro p hp
    cases hp
  | succ n ih =>
    intro p hp
    simp only [Peg.many] at hp
    split at hp
    · cases hp
    · rename_i x r hx
      rcases List.mem_append.mp hp with hp | hp
      · exact ha (w s) x r hx p hp
      · exact ih r p hp

theorem Yields.star (ha : Yields P a) : Yields P (star w a) := by
  intro s x r h p hp
  unfold Peg.star at h
  split at h
  · cases h
    cases hp
  · rename_i y r₀ hy
    cases h
    rcases List.mem_append.mp hp with hp | hp
    · exact ha s y r₀ hy p hp
    · exact ha.many _ _ p hp

theorem Yields.plus (ha : Yields P a) : Yields P (plus w a) := ha.seq ha.star

/-- A rule adds a node over those from inside. -/
theorem Yields.rule {q : R} (ha : Yields P a)
    (hq : ∀ t x, (∀ p ∈ x, P p) → P (.mk q t x)) : Yields P (rule q a) := by
  intro s x r h p hp
  obtain ⟨y, hy, rfl⟩ := rule_eq_some h
  rw [List.mem_singleton.mp hp]
  exact hq _ y (ha s y r hy)

/-- An atomic rule makes one node, with the text that it has read. -/
theorem yields_atomic {q : R}
    (hq : ∀ s x r, a s = some (x, r) → P (.mk q (consumed s r) [])) : Yields P (atomic q a) := by
  intro s x r h p hp
  obtain ⟨⟨y, hy⟩, rfl⟩ := atomic_eq_some h
  rw [List.mem_singleton.mp hp]
  exact hq s y r hy

end

end ZephyrRust.Lib.Peg
