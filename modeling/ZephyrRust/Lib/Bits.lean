/-!
# `ZephyrRust.Lib.Bits`: a machine word as a set of bits

A word of `w` bits is a set of indices below `w`. `Bits.test` is the membership. The lemmas say
what the usual idioms do to it: `x |= 1 << i` adds `i`, `x &= !(1 << i)` removes it,
`x & (1 << i) != 0` tests it, and the trailing zeros of a word that is not zero are its lowest
member.
-/

set_option autoImplicit false

namespace ZephyrRust.Lib.Bits

variable {w : Nat}

/-- `1 << i`. -/
def bit (i : Fin w) : BitVec w := 1#w <<< (i : Nat)

/-- The bit `i` of a word. -/
def test (x : BitVec w) (i : Fin w) : Bool := x.getLsbD i

@[simp] theorem test_zero (i : Fin w) : test (0#w) i = false := BitVec.getLsbD_zero

@[simp] theorem test_bit (i j : Fin w) : test (bit i) j = decide (j = i) := by
  rw [bit, ← BitVec.twoPow_eq, test, BitVec.getLsbD_twoPow]
  by_cases hij : j = i
  · subst hij
    simp
  · have hne : (i : Nat) ≠ j := fun h => hij (Fin.ext h.symm)
    simp [hij, hne]

@[simp] theorem test_or (x y : BitVec w) (i : Fin w) :
    test (x ||| y) i = (test x i || test y i) := BitVec.getLsbD_or

/-- `x & !y` removes the members of `y`. -/
@[simp] theorem test_and_not (x y : BitVec w) (i : Fin w) :
    test (x &&& ~~~y) i = (test x i && !test y i) := by
  show (x &&& ~~~y).getLsbD i = (x.getLsbD i && !y.getLsbD i)
  simp

/-- `x &= !(1 << i)` removes `i`. -/
@[simp] theorem test_and_not_bit (x : BitVec w) (i j : Fin w) :
    test (x &&& ~~~bit i) j = (test x j && !decide (j = i)) := by
  rw [test_and_not, test_bit]

/-- `x & (1 << i) != 0` is the test of the bit `i`. -/
theorem and_bit_ne_zero (x : BitVec w) (i : Fin w) :
    x &&& bit i ≠ 0#w ↔ test x i = true := by
  have hand : x &&& bit i = if test x i then bit i else 0#w := by
    rw [bit, ← BitVec.twoPow_eq]
    exact BitVec.and_twoPow x i
  have hbit : bit i ≠ 0#w := by
    intro hz
    have hi := test_bit i i
    rw [hz] at hi
    simp at hi
  rw [hand]
  cases test x i <;> simp [hbit]

/-- A word is its set of bits. -/
theorem ext {x y : BitVec w} (h : ∀ i, test x i = test y i) : x = y :=
  BitVec.eq_of_getLsbD_eq fun i hi => h ⟨i, hi⟩

/-- To remove a member makes a word smaller. -/
theorem toNat_and_not_bit_lt {x : BitVec w} {i : Fin w} (hi : test x i = true) :
    (x &&& ~~~bit i).toNat < x.toNat := by
  have hle : (x &&& ~~~bit i).toNat ≤ x.toNat := by
    rw [BitVec.toNat_and]
    exact Nat.and_le_left
  have hne : (x &&& ~~~bit i).toNat ≠ x.toNat := by
    intro heq
    have hbit : test (x &&& ~~~bit i) i = test x i := by rw [BitVec.eq_of_toNat_eq heq]
    simp [hi] at hbit
  omega

/-- The lowest member of a word that is not zero: its number of trailing zeros. -/
def lowest (x : BitVec w) (h : x ≠ 0#w) : Fin w :=
  ⟨x.ctz.toNat, BitVec.lt_of_getLsbD (BitVec.getLsbD_true_ctz_of_ne_zero h)⟩

@[simp] theorem test_lowest (x : BitVec w) (h : x ≠ 0#w) : test x (lowest x h) = true :=
  BitVec.getLsbD_true_ctz_of_ne_zero h

end ZephyrRust.Lib.Bits
