import ZephyrRust.Kconfig
import ZephyrRust.Lib.Fallible

/-!
# `ZephyrRust.Proofs.Kconfig`: what becomes of a setting

A line is split at an `=`, and a value can have more of them. `matches_configValue` has all the
ways to split a line. For the lines of Kconfig there is only one:

* the name of an option has no `=`, so every other `=` is inside the value (`split_eq`),
* a number has no `=` at all,
* in a string, an `=` is never in front of a quote, because the quotes inside are escaped
  (`escape_ne`), and the value in the pattern begins with a quote.

So `lineConst_setting` is a fact about the patterns, in which their greediness has no part.
`Const.value_setting` reads the literal back, when the number is in range and the string has no
`\r`.
-/

set_option autoImplicit false

namespace ZephyrRust.Kconfig

open ZephyrRust.Lib
open ZephyrRust.Lib.Regex (Matches)
open ZephyrRust.Lib.Fallible
open Devicetree (numeral)
open Devicetree.Grammar (isDigit isHexDigit isNonzeroDigit)

/-! ## What the patterns match -/

/-- A text that `CONFIG_.*` matches. -/
def IsName (name : List Char) : Prop :=
  ∃ t, name = "CONFIG_".toList ++ t ∧ ∀ c ∈ t, dot c = true

theorem matches_configName {s : List Char} {x : List (List Char)} :
    Matches configName s x ↔ IsName s ∧ x = [s] := by
  unfold configName
  simp only [Regex.matches_group, Regex.matches_seq, Regex.matches_lit, Regex.matches_star]
  constructor
  · rintro ⟨y, ⟨t, u, hs, y₁, y₂, ⟨ht, hy₁⟩, ⟨hu, hy₂⟩, hy⟩, hx⟩
    rw [hy₁, hy₂] at hy
    rw [ht] at hs
    rw [hy] at hx
    exact ⟨⟨u, hs, hu⟩, hx⟩
  · rintro ⟨⟨t, hs, ht⟩, hx⟩
    exact ⟨[], ⟨_, t, hs, [], [], ⟨rfl, rfl⟩, ⟨ht, rfl⟩, rfl⟩, hx⟩

theorem matches_configY {s : List Char} {x : List (List Char)} :
    Matches configY s x ↔ ∃ name, IsName name ∧ s = name ++ "=y".toList ∧ x = [name] := by
  unfold configY
  simp only [Regex.matches_seq, matches_configName, Regex.matches_lit]
  constructor
  · rintro ⟨name, u, hs, y, z, ⟨hname, hy⟩, ⟨hu, hz⟩, hx⟩
    rw [hu] at hs
    rw [hy, hz, List.append_nil] at hx
    exact ⟨name, hname, hs, hx⟩
  · rintro ⟨name, hname, hs, hx⟩
    exact ⟨name, _, hs, [name], [], ⟨hname, rfl⟩, ⟨rfl, rfl⟩, hx⟩

/-- All ways to split a line into a name and a value. -/
theorem matches_configValue {value : Regex} {s : List Char} {x : List (List Char)} :
    Matches (configValue value) s x ↔ ∃ name v y,
      IsName name ∧ s = name ++ ['='] ++ v ∧ Matches value v y ∧ x = name :: v :: y := by
  unfold configValue
  simp only [Regex.matches_seq, matches_configName, Regex.matches_lit, Regex.matches_group]
  constructor
  · rintro ⟨name, u, hs, y, z, ⟨hname, hy⟩, ⟨e, v, hu, z₁, z₂, ⟨he, hz₁⟩, ⟨w, hv, hz₂⟩, hz⟩, hx⟩
    rw [hu, he, ← List.append_assoc] at hs
    rw [hy, hz, hz₁, hz₂] at hx
    exact ⟨name, v, w, hname, hs, hv, hx⟩
  · rintro ⟨name, v, y, hname, hs, hv, hx⟩
    rw [List.append_assoc] at hs
    exact ⟨name, _, hs, [name], v :: y, ⟨hname, rfl⟩,
      ⟨['='], v, rfl, [], v :: y, ⟨rfl, rfl⟩, ⟨y, hv, rfl⟩, rfl⟩, hx⟩

theorem matches_hexValue {v : List Char} {y : List (List Char)} :
    Matches hexValue v y ↔
      ∃ digits, v = ['0', 'x'] ++ digits ∧ digits ≠ [] ∧
        (∀ c ∈ digits, isHexDigit c = true) ∧ y = [] := by
  unfold hexValue
  simp only [Regex.matches_seq, Regex.matches_lit, Regex.matches_sat, Regex.matches_star]
  constructor
  · rintro ⟨t, u, hv, y₁, y₂, ⟨ht, hy₁⟩, ⟨a, b, hu, z₁, z₂, ⟨⟨c, hc, ha⟩, hz₁⟩, ⟨hb, hz₂⟩, hz⟩, hy⟩
    rw [hy₁, hz, hz₁, hz₂] at hy
    rw [ht, hu, ha] at hv
    exact ⟨c :: b, hv, List.cons_ne_nil c b, List.forall_mem_cons.mpr ⟨hc, hb⟩, hy⟩
  · rintro ⟨digits, hv, hne, hdigits, hy⟩
    cases digits with
    | nil => exact absurd rfl hne
    | cons c b =>
      obtain ⟨hc, hb⟩ := List.forall_mem_cons.mp hdigits
      exact ⟨_, c :: b, hv, [], [], ⟨rfl, rfl⟩,
        ⟨[c], b, rfl, [], [], ⟨⟨c, hc, rfl⟩, rfl⟩, ⟨hb, rfl⟩, rfl⟩, hy⟩

theorem matches_intValue {v : List Char} {y : List (List Char)} :
    Matches intValue v y ↔
      (v = ['0'] ∨ ∃ sign c t, (sign = ['-'] ∨ sign = []) ∧ v = sign ++ c :: t ∧
        isNonzeroDigit c = true ∧ ∀ d ∈ t, isDigit d = true) ∧ y = [] := by
  unfold intValue
  simp only [Regex.matches_alt, Regex.matches_seq, Regex.matches_lit, Regex.matches_sat,
    Regex.matches_star]
  constructor
  · intro h
    cases h with
    | inl h =>
      obtain ⟨sign, u, hv, y₁, y₂, hsign, ⟨a, t, hu, z₁, z₂, ⟨⟨c, hc, ha⟩, hz₁⟩, ⟨ht, hz₂⟩, hz⟩,
        hy⟩ := h
      have hsign' : (sign = ['-'] ∨ sign = []) ∧ y₁ = [] := by
        cases hsign with
        | inl h => exact ⟨.inl h.1, h.2⟩
        | inr h => exact ⟨.inr h.1, h.2⟩
      rw [hsign'.2, hz, hz₁, hz₂] at hy
      rw [hu, ha] at hv
      exact ⟨.inr ⟨sign, c, t, hsign'.1, hv, hc, ht⟩, hy⟩
    | inr h => exact ⟨.inl h.1, h.2⟩
  · rintro ⟨h, hy⟩
    cases h with
    | inl h => exact .inr ⟨h, hy⟩
    | inr h =>
      obtain ⟨sign, c, t, hsign, hv, hc, ht⟩ := h
      refine .inl ⟨sign, c :: t, hv, [], [], ?_,
        ⟨[c], t, rfl, [], [], ⟨⟨c, hc, rfl⟩, rfl⟩, ⟨ht, rfl⟩, rfl⟩, hy⟩
      cases hsign with
      | inl h => exact .inl ⟨h, rfl⟩
      | inr h => exact .inr ⟨h, rfl⟩

theorem matches_strValue {v : List Char} {y : List (List Char)} :
    Matches strValue v y ↔
      ∃ body, v = ['"'] ++ body ++ ['"'] ∧ (∀ c ∈ body, dot c = true) ∧ y = [] := by
  unfold strValue
  simp only [Regex.matches_seq, Regex.matches_lit, Regex.matches_star]
  constructor
  · rintro ⟨q, u, hv, y₁, y₂, ⟨hq, hy₁⟩, ⟨body, q', hu, z₁, z₂, ⟨hbody, hz₁⟩, ⟨hq', hz₂⟩, hz⟩, hy⟩
    rw [hy₁, hz, hz₁, hz₂] at hy
    rw [hq, hu, hq', ← List.append_assoc] at hv
    exact ⟨body, hv, hbody, hy⟩
  · rintro ⟨body, hv, hbody, hy⟩
    rw [List.append_assoc] at hv
    exact ⟨_, _, hv, [], [], ⟨rfl, rfl⟩,
      ⟨body, ['"'], rfl, [], [], ⟨hbody, rfl⟩, ⟨rfl, rfl⟩, rfl⟩, hy⟩

/-! ## One way to split a line -/

theorem IsOption.isName {name : List Char} (h : IsOption name) : IsName name := by
  obtain ⟨t, hname, ht⟩ := h
  refine ⟨t, hname, fun c hc => ?_⟩
  have hne : c ≠ '\n' := by
    intro he
    have hc' := ht c hc
    rw [he] at hc'
    revert hc'
    decide
  exact decide_eq_true hne

theorem IsOption.eq_not_mem {name : List Char} (h : IsOption name) : '=' ∉ name := by
  obtain ⟨t, hname, ht⟩ := h
  rw [hname, List.mem_append]
  intro hmem
  cases hmem with
  | inl h => revert h; decide
  | inr h =>
    have h' := ht '=' h
    revert h'
    decide

/-- The first `=` is the one after the name. -/
theorem split_eq {name name' v v' : List Char} (hname : '=' ∉ name)
    (h : name ++ ['='] ++ v = name' ++ ['='] ++ v') :
    name' = name ∧ v' = v ∨ ∃ u, v = u ++ ['='] ++ v' := by
  induction name generalizing name' with
  | nil =>
    cases name' with
    | nil => exact .inl ⟨rfl, (List.cons.inj h).2.symm⟩
    | cons c name' => exact .inr ⟨name', (List.cons.inj h).2⟩
  | cons c name ih =>
    have hc := List.ne_of_not_mem_cons hname
    have hrest := List.not_mem_of_not_mem_cons hname
    -- `c` is no `=`, so the other name has it too.
    cases name' with
    | nil => exact absurd (List.cons.inj h).1.symm hc
    | cons d name' =>
      obtain ⟨rfl, htail⟩ := List.cons.inj h
      cases ih hrest htail with
      | inl h => exact .inl ⟨congrArg (List.cons c) h.1, h.2⟩
      | inr h => exact .inr h

/-- An escaped string does not begin with a quote. -/
theorem escape_head_ne (text t : List Char) : escape text ≠ '"' :: t := by
  cases text with
  | nil =>
    intro h
    cases h
  | cons c text =>
    rw [escape, List.flatMap_cons]
    split
    · intro h
      cases h
    · rename_i hc
      intro h
      exact hc (.inl (List.cons.inj h).1)

/-- In an escaped string, no `=` is in front of a quote. -/
theorem escape_ne (text u t : List Char) : escape text ≠ u ++ ['=', '"'] ++ t := by
  induction text generalizing u with
  | nil =>
    intro h
    have hlen := congrArg List.length h
    simp [escape] at hlen
  | cons c text ih =>
    rw [escape, List.flatMap_cons]
    show _ ++ escape text ≠ _
    split
    · rename_i hc
      -- Neither the backslash nor the character after it is an `=`.
      intro h
      cases u with
      | nil => cases (List.cons.inj h).1
      | cons d u =>
        have hrest := (List.cons.inj h).2
        cases u with
        | nil =>
          rw [(List.cons.inj hrest).1] at hc
          revert hc
          decide
        | cons e u => exact ih u (List.cons.inj hrest).2
    · intro h
      cases u with
      | nil => exact escape_head_ne text t (List.cons.inj h).2
      | cons d u => exact ih u (List.cons.inj h).2

theorem dot_of_mem_escape {text : List Char} (htext : '\n' ∉ text) {c : Char}
    (hc : c ∈ escape text) : dot c = true := by
  obtain ⟨d, hd, hmem⟩ := List.mem_flatMap.mp hc
  have hd' : dot d = true := by
    refine decide_eq_true fun he => ?_
    rw [he] at hd
    exact htext hd
  split at hmem
  · cases List.mem_cons.mp hmem with
    | inl he =>
      rw [he]
      decide
    | inr he =>
      rw [List.mem_singleton.mp he]
      exact hd'
  · rw [List.mem_singleton.mp hmem]
    exact hd'

/-- A line whose value has no `=` is split in one way. -/
theorem matches_of_no_eq {value : Regex} {name v : List Char} {x : List (List Char)}
    (hname : '=' ∉ name) (hv : '=' ∉ v) (h : Matches (configValue value) (name ++ ['='] ++ v) x) :
    ∃ y, Matches value v y ∧ x = name :: v :: y := by
  obtain ⟨name', v', y, -, hs, hmatch, hx⟩ := matches_configValue.mp h
  cases split_eq hname hs with
  | inl h =>
    rw [h.2] at hmatch
    rw [h.1, h.2] at hx
    exact ⟨y, hmatch, hx⟩
  | inr h =>
    obtain ⟨u, rfl⟩ := h
    exact absurd (List.mem_append_left _ (List.mem_append_right _ (List.mem_singleton_self _))) hv

/-- A line with a value of the pattern, when nothing of the value is captured. -/
theorem matches_line {value : Regex} {name v : List Char} (hname : IsName name)
    (hv : Matches value v []) : Matches (configValue value) (name ++ ['='] ++ v) [name, v] :=
  matches_configValue.mpr ⟨name, v, [], hname, rfl, hv, rfl⟩

/-- The quote at the end of a line is the last character of every value that it can have. -/
theorem getLast_of_split {name name' v v' : List Char} (hname : '=' ∉ name) (hne : v' ≠ [])
    (h : name ++ ['='] ++ v = name' ++ ['='] ++ v') : v'.getLast? = v.getLast? := by
  cases split_eq hname h with
  | inl h => rw [h.2]
  | inr h =>
    obtain ⟨u, rfl⟩ := h
    rw [List.getLast?_append_of_ne_nil _ hne]

/-! ## Numbers in decimal -/

theorem isDigit_of_mem_toDigits {n : Nat} {c : Char} (h : c ∈ Nat.toDigits 10 n) :
    isDigit c = true := by
  have hdigit := Nat.isDigit_of_mem_toDigits (by decide) (by decide) h
  simp only [Char.isDigit, ge_iff_le, Bool.and_eq_true, decide_eq_true_eq] at hdigit
  simp only [isDigit, Bool.and_eq_true, decide_eq_true_eq]
  exact hdigit

/-- The first digit of a positive number is not zero. -/
theorem toDigits_eq_cons {n : Nat} (h : 0 < n) :
    ∃ c t, Nat.toDigits 10 n = c :: t ∧ isNonzeroDigit c = true ∧ ∀ d ∈ t, isDigit d = true := by
  induction n using Nat.strongRecOn with
  | ind n ih =>
    by_cases hsmall : n < 10
    · refine ⟨n.digitChar, [], Nat.toDigits_of_lt_base hsmall, ?_, List.forall_mem_nil _⟩
      have hall : ∀ m : Fin 10, 0 < m.val → isNonzeroDigit m.val.digitChar = true := by
        decide
      exact hall ⟨n, hsmall⟩ h
    · have hle : 10 ≤ n := by omega
      obtain ⟨c, t, heq, hc, ht⟩ := ih (n / 10) (by omega) (by omega)
      have hlast : isDigit (n % 10).digitChar = true := by
        have hmem : (n % 10).digitChar ∈ Nat.toDigits 10 (n % 10) := by
          rw [Nat.toDigits_of_lt_base (Nat.mod_lt n (by decide))]
          exact List.mem_singleton_self _
        exact isDigit_of_mem_toDigits hmem
      -- The last digit does not change which digit is the first.
      refine ⟨c, t ++ [(n % 10).digitChar], ?_, hc, ?_⟩
      · rw [Nat.toDigits_of_base_le (by decide) hle, heq]
        rfl
      · rw [List.forall_mem_append, List.forall_mem_singleton]
        exact ⟨ht, hlast⟩

theorem mem_decimal {n : Int} {c : Char} (h : c ∈ decimal n) : c = '-' ∨ isDigit c = true := by
  cases n with
  | ofNat n => exact .inr (isDigit_of_mem_toDigits h)
  | negSucc n =>
    cases List.mem_cons.mp h with
    | inl h => exact .inl h
    | inr h => exact .inr (isDigit_of_mem_toDigits h)

theorem matches_decimal (n : Int) : Matches intValue (decimal n) [] := by
  refine matches_intValue.mpr ⟨?_, rfl⟩
  cases n with
  | ofNat n =>
    cases Nat.eq_zero_or_pos n with
    | inl h =>
      rw [h]
      exact .inl rfl
    | inr h =>
      obtain ⟨c, t, heq, hc, ht⟩ := toDigits_eq_cons h
      exact .inr ⟨[], c, t, .inr rfl, heq, hc, ht⟩
  | negSucc n =>
    obtain ⟨c, t, heq, hc, ht⟩ := toDigits_eq_cons (Nat.succ_pos n)
    exact .inr ⟨['-'], c, t, .inl rfl, congrArg (List.cons '-') heq, hc, ht⟩

/-! ## The constant of a setting -/

theorem capture_eq_some {pattern : Regex} {line name v : List Char} (type : ConstType)
    (h : Matches pattern line [name, v]) (honly : ∀ x, Matches pattern line x → x = [name, v]) :
    capture pattern type line = some ⟨name, type, v⟩ := by
  rw [capture, Regex.captures_eq_some h honly]

theorem capture_eq_none {pattern : Regex} {line : List Char} (type : ConstType)
    (h : ∀ x, ¬Matches pattern line x) : capture pattern type line = none := by
  rw [capture, Regex.captures_eq_none h]

/-- The last character of a number is no quote. -/
theorem hexValue_getLast {v : List Char} {y : List (List Char)} (h : Matches hexValue v y) :
    v ≠ [] ∧ v.getLast? ≠ some '"' := by
  obtain ⟨digits, rfl, hne, hdigits, -⟩ := matches_hexValue.mp h
  refine ⟨List.append_ne_nil_of_left_ne_nil (List.cons_ne_nil _ _) _, fun hlast => ?_⟩
  rw [List.getLast?_append_of_ne_nil _ hne] at hlast
  have hquote := hdigits '"' (List.mem_of_getLast? hlast)
  revert hquote
  decide

theorem intValue_getLast {v : List Char} {y : List (List Char)} (h : Matches intValue v y) :
    v ≠ [] ∧ v.getLast? ≠ some '"' := by
  cases (matches_intValue.mp h).1 with
  | inl h =>
    rw [h]
    decide
  | inr h =>
    obtain ⟨sign, c, t, -, rfl, hc, ht⟩ := h
    refine ⟨List.append_ne_nil_of_right_ne_nil _ (List.cons_ne_nil c t), fun hlast => ?_⟩
    rw [List.getLast?_append_of_ne_nil _ (List.cons_ne_nil c t)] at hlast
    have hquote : isDigit '"' = true := by
      cases List.mem_cons.mp (List.mem_of_getLast? hlast) with
      | inl he =>
        rw [← he] at hc
        revert hc
        decide
      | inr hmem => exact ht '"' hmem
    revert hquote
    decide

section

variable {name : List Char} (hname : IsOption name)

include hname

theorem lineConst_hex {digits : List Char} (hne : digits ≠ [])
    (hdigits : ∀ c ∈ digits, isHexDigit c = true) :
    lineConst (Setting.line name (.hex digits)) =
      some ⟨name, .usize, ['0', 'x'] ++ digits⟩ := by
  have heq : '=' ∉ ['0', 'x'] ++ digits := by
    rw [List.mem_append]
    intro h
    cases h with
    | inl h => revert h; decide
    | inr h =>
      have h' := hdigits '=' h
      revert h'
      decide
  have hmatch : Matches configHex (Setting.line name (.hex digits)) [name, ['0', 'x'] ++ digits] :=
    matches_line hname.isName (matches_hexValue.mpr ⟨digits, rfl, hne, hdigits, rfl⟩)
  have honly : ∀ x, Matches configHex (Setting.line name (.hex digits)) x →
      x = [name, ['0', 'x'] ++ digits] := by
    intro x hx
    obtain ⟨y, hy, rfl⟩ := matches_of_no_eq hname.eq_not_mem heq hx
    obtain ⟨-, -, -, -, rfl⟩ := matches_hexValue.mp hy
    rfl
  rw [lineConst, capture_eq_some .usize hmatch honly]

theorem lineConst_int (n : Int) :
    lineConst (Setting.line name (.int n)) = some ⟨name, .isize, decimal n⟩ := by
  have heq : '=' ∉ decimal n := by
    intro h
    have h' := mem_decimal h
    revert h'
    decide
  have hhex : ∀ x, ¬Matches configHex (Setting.line name (.int n)) x := by
    -- A decimal number has no `x`.
    intro x hx
    obtain ⟨y, hy, -⟩ := matches_of_no_eq hname.eq_not_mem heq hx
    obtain ⟨digits, hdecimal, -⟩ := matches_hexValue.mp hy
    have hmem : 'x' ∈ decimal n := by
      rw [hdecimal]
      exact List.mem_cons_of_mem _ List.mem_cons_self
    have h' := mem_decimal hmem
    revert h'
    decide
  have hmatch : Matches configInt (Setting.line name (.int n)) [name, decimal n] :=
    matches_line hname.isName (matches_decimal n)
  have honly : ∀ x, Matches configInt (Setting.line name (.int n)) x → x = [name, decimal n] := by
    intro x hx
    obtain ⟨y, hy, rfl⟩ := matches_of_no_eq hname.eq_not_mem heq hx
    rw [(matches_intValue.mp hy).2]
  rw [lineConst, capture_eq_none .usize hhex, capture_eq_some .isize hmatch honly]

/-- A pattern whose values do not end with a quote matches no string. -/
theorem not_matches_string {value : Regex}
    (hvalue : ∀ v y, Matches value v y → v ≠ [] ∧ v.getLast? ≠ some '"') (text : List Char) :
    ∀ x, ¬Matches (configValue value) (Setting.line name (.string text)) x := by
  intro x hx
  obtain ⟨name', v, y, -, hs, hv, -⟩ := matches_configValue.mp hx
  obtain ⟨hne, hnolast⟩ := hvalue v y hv
  have hlast : (['"'] ++ escape text ++ ['"']).getLast? = some '"' := List.getLast?_concat
  rw [getLast_of_split hname.eq_not_mem hne hs] at hnolast
  exact hnolast hlast

theorem lineConst_string {text : List Char} (htext : '\n' ∉ text) :
    lineConst (Setting.line name (.string text)) =
      some ⟨name, .str, ['"'] ++ escape text ++ ['"']⟩ := by
  have hhex : ∀ x, ¬Matches configHex (Setting.line name (.string text)) x :=
    not_matches_string hname (fun v y => hexValue_getLast) text
  have hint : ∀ x, ¬Matches configInt (Setting.line name (.string text)) x :=
    not_matches_string hname (fun v y => intValue_getLast) text
  have hmatch : Matches configStr (Setting.line name (.string text))
      [name, ['"'] ++ escape text ++ ['"']] :=
    matches_line hname.isName
      (matches_strValue.mpr ⟨escape text, rfl, fun c hc => dot_of_mem_escape htext hc, rfl⟩)
  have honly : ∀ x, Matches configStr (Setting.line name (.string text)) x →
      x = [name, ['"'] ++ escape text ++ ['"']] := by
    intro x hx
    obtain ⟨name', v, y, -, hs, hv, rfl⟩ := matches_configValue.mp hx
    obtain ⟨body, rfl, -, rfl⟩ := matches_strValue.mp hv
    cases split_eq hname.eq_not_mem hs with
    | inl h =>
      rw [h.1, h.2]
      rfl
    | inr h =>
      -- The `=` would be inside the string, and the quote of the value would come after it.
      obtain ⟨u, hu⟩ := h
      cases u with
      | nil => cases (List.cons.inj hu).1
      | cons c u =>
        have hrest : escape text ++ ['"'] = (u ++ ['=', '"'] ++ body) ++ ['"'] := by
          have htail : escape text ++ ['"'] = u ++ ['='] ++ (['"'] ++ body ++ ['"']) :=
            (List.cons.inj hu).2
          rw [htail]
          simp
        exact absurd (List.append_cancel_right hrest) (escape_ne text u body)
  rw [lineConst, capture_eq_none .usize hhex, capture_eq_none .isize hint]
  exact capture_eq_some .str hmatch honly

/-- The constant of a setting has its name, its type and its text. -/
theorem lineConst_setting {s : Setting} (hs : s.WellFormed) :
    lineConst (s.line name) = some ⟨name, s.type, s.text⟩ := by
  cases s with
  | int n => exact lineConst_int hname n
  | hex digits => exact lineConst_hex hname hs.1 hs.2
  | string text => exact lineConst_string hname hs

end

/-- A comment is no constant. -/
theorem lineConst_comment (t : List Char) : lineConst ('#' :: t) = none := by
  have hnone : ∀ (value : Regex) (x : List (List Char)),
      ¬Matches (configValue value) ('#' :: t) x := by
    intro value x hx
    obtain ⟨name, v, y, ⟨u, hu, -⟩, hs, -, -⟩ := matches_configValue.mp hx
    rw [hu] at hs
    cases (List.cons.inj hs).1
  have hhex : capture configHex .usize ('#' :: t) = none := capture_eq_none _ (hnone hexValue)
  have hint : capture configInt .isize ('#' :: t) = none := capture_eq_none _ (hnone intValue)
  rw [lineConst, hhex, hint]
  exact capture_eq_none .str (hnone strValue)

/-! ## The value of the constant -/

/-- The setting has a value for the compiler: its number is in range, or its string has no `\r`. -/
def Setting.Fits (bits : Nat) : Setting → Prop
  | .int n => InRange bits .isize n
  | .hex digits => InRange bits .usize (numeral 16 digits)
  | .string text => '\r' ∉ text

theorem natLiteral_toDigits (n : Nat) : natLiteral (Nat.toDigits 10 n) = some n := by
  have hdigits : ∀ c ∈ Nat.toDigits 10 n, isDigit c = true := fun c hc => isDigit_of_mem_toDigits hc
  unfold natLiteral
  split
  · rename_i t ht
    have hx := hdigits 'x' (by rw [ht]; exact List.mem_cons_of_mem _ List.mem_cons_self)
    exact absurd hx (by decide)
  · rw [if_pos ⟨Nat.toDigits_ne_nil, List.all_eq_true.mpr hdigits⟩, Nat.ofDigitChars_ten_toDigits]

theorem intLiteral_decimal (n : Int) : intLiteral (decimal n) = some n := by
  cases n with
  | ofNat n =>
    unfold intLiteral
    split
    · rename_i t ht
      have hminus : '-' ∈ Nat.toDigits 10 n := by
        show '-' ∈ decimal (.ofNat n)
        rw [ht]
        exact List.mem_cons_self
      exact absurd (isDigit_of_mem_toDigits hminus) (by decide)
    · show (natLiteral (Nat.toDigits 10 n)).map _ = _
      rw [natLiteral_toDigits]
      rfl
  | negSucc n =>
    show (natLiteral (Nat.toDigits 10 (n + 1))).map _ = _
    rw [natLiteral_toDigits]
    rfl

/-- The compiler reads back what was escaped. -/
theorem stringLiteral_escape {text : List Char} (h : '\r' ∉ text) :
    stringLiteral (escape text ++ ['"']) = some text := by
  induction text with
  | nil => rfl
  | cons c text ih =>
    have hc := List.ne_of_not_mem_cons h
    have hrest := ih (List.not_mem_of_not_mem_cons h)
    rw [escape, List.flatMap_cons]
    show stringLiteral (_ ++ escape text ++ ['"']) = _
    split
    · -- The compiler drops the backslash.
      rename_i hspecial
      have hescaped : escaped c = some c := by
        cases hspecial with
        | inl he =>
          rw [he]
          rfl
        | inr he =>
          rw [he]
          rfl
      show stringLiteral ('\\' :: c :: (escape text ++ ['"'])) = _
      rw [stringLiteral, hescaped, hrest]
    · rename_i hplain
      obtain ⟨hquote, hslash⟩ := not_or.mp hplain
      show stringLiteral (c :: (escape text ++ ['"'])) = _
      rw [stringLiteral]
      · rw [if_neg hquote, if_neg (not_or.mpr ⟨hslash, Ne.symm hc⟩), hrest]
        rfl
      · intro d t he
        exact absurd he hslash

/-- A number in range. -/
theorem Const.value_int {bits : Nat} {type : ConstType} {name literal : List Char} {n : Int}
    (hliteral : intLiteral literal = some n) (hrange : InRange bits type n) :
    Const.value bits ⟨name, type, literal⟩ = some (.int n) := by
  cases type with
  | usize => simp [Const.value, hliteral, hrange]
  | isize => simp [Const.value, hliteral, hrange]
  | str => exact absurd hrange id

/-- The literal of a setting has its value. -/
theorem Const.value_setting {bits : Nat} {s : Setting} (hs : s.WellFormed) (hfits : s.Fits bits)
    (name : List Char) : Const.value bits ⟨name, s.type, s.text⟩ = some s.value := by
  cases s with
  | int n => exact Const.value_int (intLiteral_decimal n) hfits
  | hex digits =>
    have hlit : intLiteral (['0', 'x'] ++ digits) = some (numeral 16 digits : Int) := by
      show (if digits ≠ [] ∧ digits.all isHexDigit then some (numeral 16 digits) else none).map
        (fun n : Nat => (n : Int)) = _
      rw [if_pos ⟨hs.1, List.all_eq_true.mpr hs.2⟩]
      rfl
    exact Const.value_int hlit hfits
  | string text =>
    show (stringLiteral (escape text ++ ['"'])).map Value.string = _
    rw [stringLiteral_escape hfits]
    rfl

/-! ## Lines -/

/-- The end of a line. -/
theorem linesFrom_line {l : List Char} (hl : '\n' ∉ l) (part post : List Char) :
    linesFrom part (l ++ '\n' :: post) = chomp (part ++ l) :: linesFrom [] post := by
  induction l generalizing part with
  | nil =>
    rw [List.append_nil]
    rfl
  | cons c l ih =>
    have hc := Ne.symm (List.ne_of_not_mem_cons hl)
    rw [List.cons_append, linesFrom, if_neg hc, ih (List.not_mem_of_not_mem_cons hl),
      List.append_assoc, List.singleton_append]

/-- What comes after a newline begins a line of its own. -/
theorem linesFrom_append (part pre post : List Char) :
    linesFrom part (pre ++ ['\n'] ++ post) = linesFrom part (pre ++ ['\n']) ++ lines post := by
  induction pre generalizing part with
  | nil => rfl
  | cons c pre ih =>
    show linesFrom part (c :: (pre ++ ['\n'] ++ post)) =
      linesFrom part (c :: (pre ++ ['\n'])) ++ lines post
    rw [linesFrom, linesFrom]
    split
    · rw [ih, List.cons_append]
    · exact ih (part ++ [c])

/-- The text ends where a line ends. -/
def EndsLine (text : List Char) : Prop := text = [] ∨ ∃ t, text = t ++ ['\n']

/-- A line of a text. -/
theorem lines_line {pre l : List Char} (hpre : EndsLine pre) (hl : '\n' ∉ l)
    (post : List Char) : lines (pre ++ l ++ '\n' :: post) = lines pre ++ chomp l :: lines post := by
  have hline : lines (l ++ '\n' :: post) = chomp l :: lines post := by
    rw [lines, linesFrom_line hl, List.nil_append]
    rfl
  rw [List.append_assoc]
  cases hpre with
  | inl h =>
    rw [h]
    exact hline
  | inr h =>
    obtain ⟨t, rfl⟩ := h
    rw [lines, linesFrom_append, hline]
    rfl

theorem newline_not_mem_linesFrom {part text : List Char} (hpart : '\n' ∉ part) :
    ∀ l ∈ linesFrom part text, '\n' ∉ l := by
  induction text generalizing part with
  | nil =>
    intro l hl
    rw [linesFrom] at hl
    split at hl
    · cases hl
    · rw [List.mem_singleton.mp hl]
      exact hpart
  | cons c text ih =>
    intro l hl
    rw [linesFrom] at hl
    split at hl
    · -- `c` ends the line, which is all that was read before it.
      cases List.mem_cons.mp hl with
      | inl he =>
        rw [he, chomp]
        split
        · intro hmem
          exact hpart ((List.dropLast_sublist part).subset hmem)
        · exact hpart
      | inr hmem => exact ih List.not_mem_nil l hmem
    · rename_i hc
      refine ih ?_ l hl
      rw [List.mem_append, List.mem_singleton, not_or]
      exact ⟨hpart, Ne.symm hc⟩

/-! ## The file -/

/-- What is written for a line of a text. -/
def constText (line : List Char) : List Char :=
  match lineConst line with
  | some c => c.written
  | none => []

/-- The text of `kconfig.rs`, line by line. -/
theorem buildKconfigMod_readLines (text : List Char) :
    buildKconfigMod (readLines text) = .ok ((lines text).flatMap constText) := by
  have hlines : ∀ ls : List (List Char),
      (ls.map some).mapM lineWritten = .ok (ls.map constText) := by
    intro ls
    induction ls with
    | nil => rfl
    | cons l ls ih =>
      have hl : lineWritten (some l) = .ok (constText l) := by
        rw [lineWritten, constText]
        cases lineConst l with
        | some c => rfl
        | none => rfl
      rw [List.map_cons, List.mapM_cons, hl, ih]
      rfl
  rw [buildKconfigMod, readLines, hlines]
  show Except.ok ((lines text).map constText).flatten = _
  rw [← List.flatMap_def]

/-- The file for a text with one more line. -/
theorem buildKconfigMod_line {pre l : List Char} (hpre : EndsLine pre) (hl : '\n' ∉ l)
    (post : List Char) :
    ∃ before after, buildKconfigMod (readLines pre) = .ok before ∧
      buildKconfigMod (readLines post) = .ok after ∧
      buildKconfigMod (readLines (pre ++ l ++ '\n' :: post)) =
        .ok (before ++ constText (chomp l) ++ after) := by
  refine ⟨_, _, buildKconfigMod_readLines pre, buildKconfigMod_readLines post, ?_⟩
  rw [buildKconfigMod_readLines, lines_line hpre hl, List.flatMap_append, List.flatMap_cons,
    List.append_assoc]

/-- The value of a setting has no newline, and it does not end with a `\r`. -/
theorem Setting.text_end {s : Setting} (hs : s.WellFormed) :
    '\n' ∉ s.text ∧ s.text ≠ [] ∧ s.text.getLast? ≠ some '\r' := by
  cases s with
  | int n =>
    have hne : ∀ c, c = '\n' ∨ c = '\r' → c ∉ decimal n := by
      intro c hc hmem
      have hdigit := mem_decimal hmem
      cases hc with
      | inl he =>
        rw [he] at hdigit
        exact absurd hdigit (by decide)
      | inr he =>
        rw [he] at hdigit
        exact absurd hdigit (by decide)
    refine ⟨hne '\n' (.inl rfl), fun he => ?_, fun hlast => ?_⟩
    · cases n with
      | ofNat n => exact Nat.toDigits_ne_nil he
      | negSucc n => cases he
    · exact hne '\r' (.inr rfl) (List.mem_of_getLast? hlast)
  | hex digits =>
    have hne : ∀ c, c = '\n' ∨ c = '\r' → c ∉ ['0', 'x'] ++ digits := by
      intro c hc hmem
      have hhex : c = '0' ∨ c = 'x' ∨ isHexDigit c = true := by
        cases List.mem_append.mp hmem with
        | inl h =>
          cases List.mem_cons.mp h with
          | inl h => exact .inl h
          | inr h => exact .inr (.inl (List.mem_singleton.mp h))
        | inr h => exact .inr (.inr (hs.2 c h))
      cases hc with
      | inl he =>
        rw [he] at hhex
        exact absurd hhex (by decide)
      | inr he =>
        rw [he] at hhex
        exact absurd hhex (by decide)
    refine ⟨hne '\n' (.inl rfl), List.cons_ne_nil _ _, fun hlast => ?_⟩
    exact hne '\r' (.inr rfl) (List.mem_of_getLast? hlast)
  | string text =>
    refine ⟨fun hmem => ?_, List.cons_ne_nil _ _, fun hlast => ?_⟩
    · cases List.mem_append.mp hmem with
      | inl hmem =>
        cases List.mem_append.mp hmem with
        | inl h => exact absurd h (by decide)
        | inr h => exact of_decide_eq_true (dot_of_mem_escape hs h) rfl
      | inr h => exact absurd h (by decide)
    · have hquote : (['"'] ++ escape text ++ ['"']).getLast? = some '"' := List.getLast?_concat
      rw [Setting.text, hquote] at hlast
      cases hlast

/-- A setting is one line, and its end is no part of a line ending. -/
theorem Setting.line_chomp {name : List Char} (hname : IsOption name) {s : Setting}
    (hs : s.WellFormed) : '\n' ∉ s.line name ∧ chomp (s.line name) = s.line name := by
  have hdot : ∀ c, dot c = true → c ≠ '\n' := fun c hc => of_decide_eq_true hc
  have hnewline : '\n' ∉ name := by
    obtain ⟨t, rfl, ht⟩ := hname.isName
    rw [List.mem_append]
    intro hmem
    cases hmem with
    | inl h => exact absurd h (by decide)
    | inr h => exact hdot _ (ht _ h) rfl
  obtain ⟨htext, hne, hlast⟩ := s.text_end hs
  constructor
  · rw [Setting.line, List.mem_append, List.mem_append, not_or, not_or]
    exact ⟨⟨hnewline, by decide⟩, htext⟩
  · rw [chomp, if_neg]
    rw [Setting.line, List.getLast?_append_of_ne_nil _ hne]
    exact hlast

theorem chomp_comment (t : List Char) : ∃ t', chomp ('#' :: t) = '#' :: t' := by
  unfold chomp
  split
  · cases t with
    | nil => rename_i h; exact absurd h (by decide)
    | cons c t => exact ⟨(c :: t).dropLast, rfl⟩
  · exact ⟨t, rfl⟩

/-- The name of a line is what is in front of `=y`. -/
theorem boolOption_eq_some {l name : List Char} :
    boolOption (some l) = some name ↔ IsName name ∧ l = name ++ "=y".toList := by
  have hmatches := @matches_configY l
  constructor
  · intro h
    unfold boolOption at h
    split at h
    · rename_i name' hcaptures
      obtain ⟨name₀, hname, hs, hx⟩ := hmatches.mp (Regex.matches_of_captures hcaptures)
      cases hx
      cases h
      exact ⟨hname, hs⟩
    · cases h
  · intro ⟨hname, hs⟩
    have honly : ∀ x, Matches configY l x → x = [name] := by
      intro x hx
      obtain ⟨name', -, hs', rfl⟩ := hmatches.mp hx
      rw [List.append_cancel_right (hs.symm.trans hs')]
    have hcaptures := Regex.captures_eq_some (hmatches.mpr ⟨name, hname, hs, rfl⟩) honly
    rw [boolOption, Option.getD_some, hcaptures]

/-- The options that are returned. -/
theorem mem_extractKconfigBoolOptions {text name : List Char} :
    name ∈ extractKconfigBoolOptions (readLines text) ↔
      "CONFIG_".toList <+: name ∧ name ++ "=y".toList ∈ lines text := by
  rw [extractKconfigBoolOptions, List.mem_filterMap]
  constructor
  · intro ⟨line, hline, hbool⟩
    obtain ⟨l, hl, rfl⟩ := List.mem_map.mp hline
    obtain ⟨⟨t, ht, -⟩, hs⟩ := boolOption_eq_some.mp hbool
    rw [← hs]
    exact ⟨⟨t, ht.symm⟩, hl⟩
  · intro ⟨⟨t, ht⟩, hl⟩
    refine ⟨some (name ++ "=y".toList), List.mem_map_of_mem hl, boolOption_eq_some.mpr ⟨?_, rfl⟩⟩
    refine ⟨t, ht.symm, fun c hc => decide_eq_true fun he => ?_⟩
    -- A line has no newline.
    refine newline_not_mem_linesFrom List.not_mem_nil _ hl ?_
    rw [← ht, ← he]
    exact List.mem_append_left _ (List.mem_append_right _ hc)

/-- The settings that have a value for the compiler become constants with this value, the comments
become nothing, and the options that are `y` are returned. -/
theorem kconfig_values_survive (bits : Nat) :
    (∀ (name : List Char) (s : Setting), IsOption name → s.WellFormed → s.Fits bits →
      ∃ c, lineConst (s.line name) = some c ∧ c.name = name ∧ c.type = s.type ∧
        c.value bits = some s.value ∧
        ∀ pre post, EndsLine pre → ∃ before after,
          buildKconfigMod (readLines pre) = .ok before ∧
          buildKconfigMod (readLines post) = .ok after ∧
          buildKconfigMod (readLines (pre ++ s.line name ++ '\n' :: post)) =
            .ok (before ++ c.written ++ after)) ∧
    (∀ t pre post : List Char, '\n' ∉ t → EndsLine pre → ∃ before after,
      buildKconfigMod (readLines pre) = .ok before ∧
      buildKconfigMod (readLines post) = .ok after ∧
      buildKconfigMod (readLines (pre ++ '#' :: t ++ '\n' :: post)) = .ok (before ++ after)) ∧
    ∀ text name : List Char, name ∈ extractKconfigBoolOptions (readLines text) ↔
      "CONFIG_".toList <+: name ∧ name ++ "=y".toList ∈ lines text := by
  refine ⟨fun name s hname hs hfits => ?_, fun t pre post ht hpre => ?_,
    fun text name => mem_extractKconfigBoolOptions⟩
  · have hconst := lineConst_setting hname hs
    obtain ⟨hnewline, hchomp⟩ := s.line_chomp hname hs
    refine ⟨_, hconst, rfl, rfl, Const.value_setting hs hfits name, fun pre post hpre => ?_⟩
    obtain ⟨before, after, hbefore, hafter, hbuild⟩ := buildKconfigMod_line hpre hnewline post
    rw [hchomp, constText, hconst] at hbuild
    exact ⟨before, after, hbefore, hafter, hbuild⟩
  · have hnewline : '\n' ∉ '#' :: t := by
      intro hmem
      cases List.mem_cons.mp hmem with
      | inl h => exact absurd h (by decide)
      | inr h => exact ht h
    obtain ⟨t', ht'⟩ := chomp_comment t
    obtain ⟨before, after, hbefore, hafter, hbuild⟩ := buildKconfigMod_line hpre hnewline post
    rw [ht', constText, lineConst_comment, List.append_nil] at hbuild
    exact ⟨before, after, hbefore, hafter, hbuild⟩

/-- A string with a quote, an `=` and a `#` after a comment. -/
theorem kconfig_values_survive_string :
    ∃ c, lineConst (Setting.line "CONFIG_A".toList (.string "a=\"0x1#".toList)) = some c ∧
      c.value 32 = some (.string "a=\"0x1#".toList) ∧
      ∃ before after, buildKconfigMod (readLines "# B is not set\n".toList) = .ok before ∧
        buildKconfigMod (readLines []) = .ok after ∧
        buildKconfigMod (readLines ("# B is not set\n".toList ++
          Setting.line "CONFIG_A".toList (.string "a=\"0x1#".toList) ++ '\n' :: [])) =
            .ok (before ++ c.written ++ after) := by
  have hname : IsOption "CONFIG_A".toList := ⟨['A'], rfl, List.forall_mem_singleton.mpr (by decide)⟩
  have hs : (Setting.string "a=\"0x1#".toList).WellFormed := by
    show '\n' ∉ "a=\"0x1#".toList
    decide
  have hfits : (Setting.string "a=\"0x1#".toList).Fits 32 := by
    show '\r' ∉ "a=\"0x1#".toList
    decide
  obtain ⟨c, hc, -, -, hvalue, hfile⟩ := (kconfig_values_survive 32).1 _ _ hname hs hfits
  exact ⟨c, hc, hvalue, hfile _ [] (.inr ⟨"# B is not set".toList, rfl⟩)⟩

/-- A number that is too large for `isize`, and a string with a `\r`. Both become constants, and the
compiler gives neither of them its value. -/
theorem kconfig_values_lost :
    (IsOption "CONFIG_A".toList ∧ (Setting.int (2 ^ 63)).WellFormed ∧
      (Setting.string ['\r']).WellFormed) ∧
    (∃ c, lineConst (Setting.line "CONFIG_A".toList (.int (2 ^ 63))) = some c ∧
      c.type = .isize ∧ c.value 64 = none ∧ c.value 32 = none) ∧
    ∃ c, lineConst (Setting.line "CONFIG_A".toList (.string ['\r'])) = some c ∧
      ∀ bits, c.value bits = none := by
  refine ⟨⟨⟨['A'], rfl, List.forall_mem_singleton.mpr (by decide)⟩, trivial, ?_⟩, ?_, ?_⟩
  · show '\n' ∉ ['\r']
    decide
  · refine ⟨⟨"CONFIG_A".toList, .isize, decimal (2 ^ 63)⟩, ?_, rfl, ?_, ?_⟩
    all_goals decide +kernel
  · refine ⟨⟨"CONFIG_A".toList, .str, ['"', '\r', '"']⟩, ?_, fun bits => rfl⟩
    decide +kernel

end ZephyrRust.Kconfig
