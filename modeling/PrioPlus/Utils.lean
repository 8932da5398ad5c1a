import Mathlib.Algebra.Group.Nat.Defs

/-!
# `utils.h`, and shifts of words

`LOG2` is one more than the binary logarithm of its argument with the lowest bit set.
-/

namespace PrioPlus

/-- `__builtin_clzll`, for a word that is not zero. -/
def builtinClzll (x : UInt64) : ℕ := 63 - Nat.log2 x.toNat

/-- `LOG2`, an `unsigned`. -/
def log2 (x : UInt64) : UInt32 := UInt32.ofNat (8 * 8 - builtinClzll (x ||| 1))

/-! ### Shifts -/

theorem toNat_one_shiftLeft {n : UInt64} (hn : n.toNat ≤ 63) : ((1 : UInt64) <<< n).toNat = 2 ^ n.toNat := by
  have hpow : 2 ^ n.toNat < 2 ^ 64 := Nat.pow_lt_pow_right (by decide) (by omega)
  have hshift : n.toNat % 64 = n.toNat := Nat.mod_eq_of_lt (by omega)
  rw [UInt64.toNat_shiftLeft, hshift, UInt64.toNat_one, Nat.one_shiftLeft, Nat.mod_eq_of_lt hpow]

theorem toNat_shiftRight_ofNat (v : UInt64) {k : ℕ} (hk : k < 64) : (v >>> UInt64.ofNat k).toNat = v.toNat / 2 ^ k := by
  have hofNat : (UInt64.ofNat k).toNat = k := UInt64.toNat_ofNat_of_lt' (Nat.lt_trans hk (by decide))
  rw [UInt64.toNat_shiftRight, hofNat, Nat.mod_eq_of_lt hk, Nat.shiftRight_eq_div_pow]

/-! ### The logarithm -/

section Log

variable (x : UInt64)

theorem toNat_or_one : (x ||| 1).toNat = 2 * (x.toNat / 2) + 1 := by
  rw [UInt64.toNat_or, UInt64.toNat_one]
  apply Nat.eq_of_testBit_eq
  intro i
  cases i with
  | zero => simp
  | succ i =>
    have hhalf : (2 * (x.toNat / 2) + 1) / 2 = x.toNat / 2 := by omega
    rw [Nat.testBit_or, Nat.testBit_succ, Nat.testBit_succ, Nat.testBit_succ, hhalf]
    simp

theorem toNat_log2 : (log2 x).toNat = Nat.log2 (2 * (x.toNat / 2) + 1) + 1 := by
  have hx := x.toNat_lt
  have hlog : Nat.log2 (2 * (x.toNat / 2) + 1) < 64 := (Nat.log2_lt (by omega)).mpr (by omega)
  rw [log2, builtinClzll, toNat_or_one, UInt32.toNat_ofNat_of_lt' (by change _ < 2 ^ 32; omega)]
  omega

theorem lt_two_pow_log2 : x.toNat < 2 ^ (log2 x).toNat := by
  have hlt := Nat.lt_log2_self (n := 2 * (x.toNat / 2) + 1)
  rw [toNat_log2]
  omega

end Log

end PrioPlus
