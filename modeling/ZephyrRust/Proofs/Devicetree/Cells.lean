import ZephyrRust.Devicetree.Augment

/-!
# `ZephyrRust.Proofs.Devicetree.Cells`: the cells of a property, grouped

`Value::to_tokens` writes a reference to a GPIO controller and the numbers after it as one item. The
items can be taken apart again, and nothing is lost:

* `wordTokens_drop`: the loop continues after the numbers that it put into an item.
* `gpioArgs_eq_some`: what the iterator that looks ahead finds.
* `expand_wordTokens`: the items, taken apart, are the cells.
* `item_of_phandle`: the item of a reference in the middle of the list. No item in front of it
  takes the reference, because only numbers are taken.
-/

set_option autoImplicit false

namespace ZephyrRust.Devicetree

open Augment

/-- A cell on its own. -/
def Word.plain : Word → RawWord
  | .number n => .number n
  | .phandle ph => .phandle ph.name

/-- An item taken apart. -/
def RawWord.expand : RawWord → List RawWord
  | .gpio name args => .phandle name :: args.map .number
  | w => [w]

/-- The reference `ph` is to a GPIO controller with `n` cells. -/
def ToGpio (dt : DeviceTree) (ph : Phandle) (n : Nat) : Prop :=
  ∃ target k, ph.node.bind dt.deref = some target ∧ target.hasProp "gpio-controller" = true ∧
    target.getProperty "#gpio-cells" = some [.words [.number k]] ∧ k.toNat = n

/-- At least `n` numbers are at the front of the list. -/
def NumbersFollow (n : Nat) (ws : List Word) : Prop :=
  ∃ args : List UInt32, args.length = n ∧ args.map Word.number <+: ws

variable {dt : DeviceTree}

/-! ## Looking ahead -/

theorem gpioArgs_eq_some {k : Nat} {ws : List Word} {args : List UInt32} :
    gpioArgs k ws = some args ↔ args.length = k ∧ args.map Word.number <+: ws := by
  induction k generalizing ws args with
  | zero =>
    constructor
    · intro h
      cases h
      exact ⟨rfl, List.nil_prefix⟩
    · rintro ⟨hlen, -⟩
      rw [List.eq_nil_of_length_eq_zero hlen]
      rfl
  | succ k ih =>
    cases ws with
    | nil =>
      constructor
      · intro h
        cases h
      · rintro ⟨hlen, hpre⟩
        have hnil := List.map_eq_nil_iff.mp (List.prefix_nil.mp hpre)
        rw [hnil] at hlen
        cases hlen
    | cons w ws =>
      cases w with
      | number n =>
        simp only [gpioArgs, Option.map_eq_some_iff]
        constructor
        · rintro ⟨rest, hrest, rfl⟩
          obtain ⟨hlen, hpre⟩ := ih.mp hrest
          exact ⟨congrArg (· + 1) hlen, List.cons_prefix_cons.mpr ⟨rfl, hpre⟩⟩
        · rintro ⟨hlen, hpre⟩
          cases args with
          | nil => cases hlen
          | cons a args =>
            obtain ⟨ha, htail⟩ := List.cons_prefix_cons.mp hpre
            cases ha
            exact ⟨args, ih.mpr ⟨Nat.succ.inj hlen, htail⟩, rfl⟩
      | phandle ph =>
        constructor
        · intro h
          cases h
        · rintro ⟨hlen, hpre⟩
          cases args with
          | nil => cases hlen
          | cons a args =>
            obtain ⟨ha, -⟩ := List.cons_prefix_cons.mp hpre
            cases ha

theorem Node.getNumber_eq_some {n : Node} {name : String} {k : UInt32} :
    n.getNumber name = some k ↔ n.getProperty name = some [.words [.number k]] := by
  constructor
  · intro h
    unfold getNumber getWords at h
    split at h
    · rename_i hwords
      split at hwords
      · rename_i hprop
        cases h
        cases hwords
        exact hprop
      · cases hwords
    · cases h
  · intro h
    simp only [getNumber, getWords, h]

theorem gpioCells_eq_some {ph : Phandle} {n : Nat} : gpioCells dt ph = some n ↔ ToGpio dt ph n := by
  unfold gpioCells ToGpio
  cases ph.node.bind dt.deref with
  | none => simp
  | some target =>
    simp only [Option.some.injEq, exists_and_left, exists_eq_left']
    split
    · simp only [Option.map_eq_some_iff, Node.getNumber_eq_some]
      constructor
      · rintro ⟨k, hk, rfl⟩
        exact ⟨‹_›, k, hk, rfl⟩
      · rintro ⟨-, k, hk, rfl⟩
        exact ⟨k, hk, rfl⟩
    · constructor
      · intro h
        cases h
      · rintro ⟨hprop, -⟩
        contradiction

/-! ## The loop -/

/-- The loop continues after the cells that it skips. -/
theorem wordTokens_drop (skip : Nat) (ws : List Word) :
    wordTokens dt skip ws = wordTokens dt 0 (ws.drop skip) := by
  induction ws generalizing skip with
  | nil =>
    rw [List.drop_nil]
    cases skip <;> rfl
  | cons w ws ih =>
    cases skip with
    | zero => rfl
    | succ skip => exact ih skip

theorem wordTokens_number (n : UInt32) (ws : List Word) :
    wordTokens dt 0 (.number n :: ws) = .number n :: wordTokens dt 0 ws := rfl

/-- A reference with its numbers. -/
theorem wordTokens_gpio {ph : Phandle} {args : List UInt32} (ws : List Word)
    (hcells : ToGpio dt ph args.length) :
    wordTokens dt 0 (.phandle ph :: (args.map Word.number ++ ws)) =
      .gpio ph.name args :: wordTokens dt 0 ws := by
  have hargs : gpioArgs args.length (args.map Word.number ++ ws) = some args :=
    gpioArgs_eq_some.mpr ⟨rfl, List.prefix_append _ _⟩
  have hdrop : (args.map Word.number ++ ws).drop args.length = ws := by
    rw [← List.length_map (f := Word.number), List.drop_left]
  simp only [wordTokens, gpioCells_eq_some.mpr hcells, hargs, Option.bind_some, Option.map_some]
  rw [wordTokens_drop, hdrop]

/-- A reference on its own. -/
theorem wordTokens_phandle {ph : Phandle} {ws : List Word}
    (h : ∀ n, ToGpio dt ph n → ¬NumbersFollow n ws) :
    wordTokens dt 0 (.phandle ph :: ws) = .phandle ph.name :: wordTokens dt 0 ws := by
  have hnone : ((gpioCells dt ph).bind fun cells =>
      (gpioArgs cells ws).map fun args => (cells, args)) = none := by
    cases hcells : gpioCells dt ph with
    | none => rfl
    | some n =>
      cases hargs : gpioArgs n ws with
      | none => simp [hargs]
      | some args =>
        exact absurd ⟨args, gpioArgs_eq_some.mp hargs⟩ (h n (gpioCells_eq_some.mp hcells))
  simp only [wordTokens, hnone]

/-- The two ways to write a reference. -/
theorem phandle_cases (dt : DeviceTree) (ph : Phandle) (ws : List Word) :
    (∃ (args : List UInt32) (rest : List Word), ws = args.map Word.number ++ rest ∧
      ToGpio dt ph args.length) ∨
      ∀ n, ToGpio dt ph n → ¬NumbersFollow n ws := by
  by_cases h : ∃ n, ToGpio dt ph n ∧ NumbersFollow n ws
  · obtain ⟨n, hcells, args, rfl, rest, rfl⟩ := h
    exact .inl ⟨args, rest, rfl, hcells⟩
  · refine .inr fun n hcells hnumbers => ?_
    exact h ⟨n, hcells, hnumbers⟩

theorem map_plain_number (args : List UInt32) :
    (args.map Word.number).map Word.plain = args.map RawWord.number := by
  rw [List.map_map]
  rfl

/-- The items, taken apart, are the cells. -/
theorem expand_wordTokens (dt : DeviceTree) (ws : List Word) :
    (wordTokens dt 0 ws).flatMap RawWord.expand = ws.map Word.plain := by
  -- By induction on the length, as an item can take several cells.
  induction hlen : ws.length using Nat.strongRecOn generalizing ws with
  | _ len ih =>
    cases ws with
    | nil => rfl
    | cons w ws =>
      rw [List.length_cons] at hlen
      cases w with
      | number n =>
        rw [wordTokens_number, List.flatMap_cons, ih ws.length (by omega) ws rfl]
        rfl
      | phandle ph =>
        rcases phandle_cases dt ph ws with ⟨args, rest, rfl, hcells⟩ | hplain
        · have hrest : rest.length < len := by
            rw [List.length_append] at hlen
            omega
          rw [wordTokens_gpio rest hcells, List.flatMap_cons, ih _ hrest rest rfl, List.map_cons,
            List.map_append, map_plain_number]
          rfl
        · rw [wordTokens_phandle hplain, List.flatMap_cons, ih ws.length (by omega) ws rfl]
          rfl

/-- Numbers in front of a reference end before it. -/
theorem numbers_before {args : List UInt32} {pre post rest : List Word} {ph : Phandle}
    (h : pre ++ .phandle ph :: post = args.map Word.number ++ rest) :
    ∃ pre', pre = args.map Word.number ++ pre' ∧ rest = pre' ++ .phandle ph :: post := by
  induction args generalizing pre with
  | nil => exact ⟨pre, rfl, h.symm⟩
  | cons a args ih =>
    cases pre with
    | nil => cases h
    | cons w pre =>
      obtain ⟨hw, htail⟩ := List.cons_eq_cons.mp h
      obtain ⟨pre', rfl, hrest⟩ := ih htail
      exact ⟨pre', by rw [hw]; rfl, hrest⟩

/-- The items in front of a reference are those of the cells in front of it. -/
theorem wordTokens_append_phandle (dt : DeviceTree) (pre post : List Word) (ph : Phandle) :
    ∃ before, wordTokens dt 0 (pre ++ .phandle ph :: post) =
        before ++ wordTokens dt 0 (.phandle ph :: post) ∧
      before.flatMap RawWord.expand = pre.map Word.plain := by
  induction hlen : pre.length using Nat.strongRecOn generalizing pre with
  | _ len ih =>
    cases pre with
    | nil => exact ⟨[], rfl, rfl⟩
    | cons w pre =>
      rw [List.length_cons] at hlen
      cases w with
      | number n =>
        obtain ⟨before, heq, hbefore⟩ := ih pre.length (by omega) pre rfl
        refine ⟨.number n :: before, ?_, ?_⟩
        · rw [List.cons_append, wordTokens_number, heq, List.cons_append]
        · rw [List.flatMap_cons, hbefore]
          rfl
      | phandle q =>
        rw [List.cons_append]
        have hcases := phandle_cases dt q (pre ++ .phandle ph :: post)
        rcases hcases with ⟨args, rest, hnum, hcells⟩ | hplain
        · obtain ⟨pre', rfl, rfl⟩ := numbers_before hnum
          have hpre : pre'.length < len := by
            rw [List.length_append] at hlen
            omega
          obtain ⟨before, heq, hbefore⟩ := ih _ hpre pre' rfl
          refine ⟨.gpio q.name args :: before, ?_, ?_⟩
          · rw [hnum, wordTokens_gpio _ hcells, heq, List.cons_append]
          · rw [List.flatMap_cons, hbefore, List.map_cons, List.map_append, map_plain_number]
            rfl
        · obtain ⟨before, heq, hbefore⟩ := ih pre.length (by omega) pre rfl
          refine ⟨.phandle q.name :: before, ?_, ?_⟩
          · rw [wordTokens_phandle hplain, heq, List.cons_append]
          · rw [List.flatMap_cons, hbefore]
            rfl

/-- The item of a reference. -/
theorem item_of_phandle (dt : DeviceTree) (ph : Phandle) (post : List Word) :
    ∃ item after, wordTokens dt 0 (.phandle ph :: post) = item :: after ∧
      (∀ n, (∃ args, item = .gpio ph.name args ∧ args.length = n) ↔
        ToGpio dt ph n ∧ NumbersFollow n post) ∧
      ((∃ args, item = .gpio ph.name args) ∨ item = .phandle ph.name) := by
  rcases phandle_cases dt ph post with ⟨args, rest, rfl, hcells⟩ | hplain
  · refine ⟨_, _, wordTokens_gpio rest hcells, fun n => ⟨?_, ?_⟩, .inl ⟨args, rfl⟩⟩
    · rintro ⟨args', heq, rfl⟩
      cases heq
      exact ⟨hcells, args, rfl, List.prefix_append _ _⟩
    · rintro ⟨hcells', -⟩
      refine ⟨args, rfl, ?_⟩
      -- The target has one number of cells.
      have h := (gpioCells_eq_some.mpr hcells).symm.trans (gpioCells_eq_some.mpr hcells')
      exact Option.some.inj h
  · refine ⟨_, _, wordTokens_phandle hplain, fun n => ⟨?_, ?_⟩, .inr rfl⟩
    · rintro ⟨args, heq, -⟩
      cases heq
    · rintro ⟨hcells, hnumbers⟩
      exact absurd hnumbers (hplain n hcells)

/-- The items that `Value::to_tokens` writes for the cells of a property can be taken apart into
these cells, and a reference is written with `n` numbers if and only if its target is a GPIO
controller with `n` cells and so many numbers follow. -/
theorem cells_grouped_losslessly (dt : DeviceTree) (ws : List Word) :
    ∃ items, toTokens dt (.words ws) = .words items ∧
      items.flatMap RawWord.expand = ws.map Word.plain ∧
      ∀ pre ph post, ws = pre ++ .phandle ph :: post →
        ∃ before item after, items = before ++ item :: after ∧
          before.flatMap RawWord.expand = pre.map Word.plain ∧
          (∀ n, (∃ args, item = .gpio ph.name args ∧ args.length = n) ↔
            ToGpio dt ph n ∧ NumbersFollow n post) ∧
          ((∃ args, item = .gpio ph.name args) ∨ item = .phandle ph.name) := by
  refine ⟨wordTokens dt 0 ws, rfl, expand_wordTokens dt ws, ?_⟩
  rintro pre ph post rfl
  obtain ⟨before, heq, hbefore⟩ := wordTokens_append_phandle dt pre post ph
  obtain ⟨item, after, hitem, hgpio, hname⟩ := item_of_phandle dt ph post
  refine ⟨before, item, after, ?_, hbefore, hgpio, hname⟩
  rw [heq, hitem]

end ZephyrRust.Devicetree
