import Mathlib.Algebra.BigOperators.Intervals
import Mathlib.Tactic.Ring

/-!
# The ripple-carry adder

Bits are functions of their position. The carry goes from one position to the next with one multiplication, as
`c ^^ ((c ^^ x) && (c ^^ y))`, and the sums with the last carry on top are the sum of the numbers
(`value_sumBit_add_carry`).
-/

namespace PrioPlus.Lib.RippleCarry

open Finset

/-- The number with the given bits. -/
def value (width : ℕ) (b : ℕ → Bool) : ℕ := ∑ k ∈ range width, 2 ^ k * (b k).toNat

@[simp] theorem value_zero (b : ℕ → Bool) : value 0 b = 0 := rfl

theorem value_succ (width : ℕ) (b : ℕ → Bool) : value (width + 1) b = value width b + 2 ^ width * (b width).toNat :=
  sum_range_succ _ _

theorem value_congr {width : ℕ} {b b' : ℕ → Bool} (h : ∀ k < width, b k = b' k) : value width b = value width b' :=
  sum_congr rfl fun k hk => by rw [h k (mem_range.mp hk)]

/-- The carry out of one position. -/
def carryOut (c x y : Bool) : Bool := c ^^ ((c ^^ x) && (c ^^ y))

theorem fullAdder (c x y : Bool) : (c ^^ x ^^ y).toNat + 2 * (carryOut c x y).toNat = x.toNat + y.toNat + c.toNat := by
  cases c <;> cases x <;> cases y <;> rfl

variable (x y : ℕ → Bool)

/-- The carry into position `k`. -/
def carry : ℕ → Bool
  | 0 => false
  | k + 1 => carryOut (carry k) (x k) (y k)

def sumBit (k : ℕ) : Bool := carry x y k ^^ x k ^^ y k

theorem value_sumBit_add_carry (width : ℕ) :
    value width (sumBit x y) + 2 ^ width * (carry x y width).toNat = value width x + value width y := by
  induction width with
  | zero => rfl
  | succ width ih =>
    have hadder := fullAdder (carry x y width) (x width) (y width)
    rw [value_succ, value_succ, value_succ, pow_succ]
    calc value width (sumBit x y) + 2 ^ width * (sumBit x y width).toNat +
          2 ^ width * 2 * (carry x y (width + 1)).toNat
        = value width (sumBit x y) + 2 ^ width *
            ((carry x y width ^^ x width ^^ y width).toNat +
              2 * (carryOut (carry x y width) (x width) (y width)).toNat) := by
          rw [sumBit, carry]
          ring
      _ = value width (sumBit x y) + 2 ^ width * (carry x y width).toNat +
            2 ^ width * ((x width).toNat + (y width).toNat) := by
          rw [hadder]
          ring
      _ = value width x + 2 ^ width * (x width).toNat + (value width y + 2 ^ width * (y width).toNat) := by
          rw [ih]
          ring

end PrioPlus.Lib.RippleCarry
