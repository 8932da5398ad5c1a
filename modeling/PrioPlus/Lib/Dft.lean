import Mathlib.Algebra.BigOperators.Intervals
import Mathlib.Algebra.Polynomial.BigOperators
import Mathlib.Algebra.Polynomial.Roots
import Mathlib.RingTheory.RootsOfUnity.PrimitiveRoots
import Mathlib.Tactic.LinearCombination

/-!
# The discrete Fourier transform over a commutative ring

`dft ω n y j = ∑ i < n, y i * ω ^ (i * j)`. Two facts carry everything else:

* one decimation-in-frequency step (`dft_even`, `dft_odd`): an even (odd) output of size `2h` is an output
  of size `h` over `ω ^ 2`, of the sums (of the twisted differences) of the two halves of the input;
* orthogonality of the powers of a primitive root (`sum_pow_mul_inv`), from which the scaled transform over
  `ω⁻¹` inverts the transform over `ω` (`dft_inverse`).

A coefficient sequence is read as a polynomial by `polyOf`, so that a transform is the list of values of a
polynomial at the powers of `ω` (`eval_polyOf_pow`).
-/

namespace PrioPlus.Lib

open Finset Polynomial

section Ring

variable {R : Type*} [CommRing R]

/-- The transform of the first `n` entries of `y`, at frequency `j`. -/
def dft (ω : R) (n : ℕ) (y : ℕ → R) (j : ℕ) : R := ∑ i ∈ range n, y i * ω ^ (i * j)

@[simp] theorem dft_one (ω : R) (y : ℕ → R) : dft ω 1 y 0 = y 0 := by simp [dft]

theorem dft_congr {ω : R} {n : ℕ} {y z : ℕ → R} (h : ∀ i < n, y i = z i) (j : ℕ) :
    dft ω n y j = dft ω n z j :=
  sum_congr rfl fun i hi => by rw [h i (mem_range.mp hi)]

theorem dft_double (ω : R) (h : ℕ) (y : ℕ → R) (j : ℕ) :
    dft ω (h + h) y j = ∑ i ∈ range h, (y i + ω ^ (h * j) * y (i + h)) * ω ^ (i * j) := by
  rw [dft, sum_range_add, ← sum_add_distrib]
  apply sum_congr rfl
  intro i _
  rw [Nat.add_comm h i, Nat.add_mul, pow_add]
  ring

theorem dft_even {ω : R} {h : ℕ} (hω : ω ^ h = -1) (y : ℕ → R) (j : ℕ) :
    dft ω (h + h) y (2 * j) = dft (ω ^ 2) h (fun i => y i + y (i + h)) j := by
  rw [dft_double, dft]
  apply sum_congr rfl
  intro i _
  have hone : ω ^ (h * (2 * j)) = 1 := by
    rw [pow_mul, hω, pow_mul, neg_one_sq, one_pow]
  rw [hone, one_mul, ← pow_mul]
  ring_nf

theorem dft_odd {ω : R} {h : ℕ} (hω : ω ^ h = -1) (y : ℕ → R) (j : ℕ) :
    dft ω (h + h) y (2 * j + 1) = dft (ω ^ 2) h (fun i => (y i - y (i + h)) * ω ^ i) j := by
  rw [dft_double, dft]
  apply sum_congr rfl
  intro i _
  have hneg : ω ^ (h * (2 * j + 1)) = -1 := by
    rw [pow_mul, hω, pow_succ, pow_mul, neg_one_sq, one_pow, one_mul]
  have hpow : ω ^ (i * (2 * j + 1)) = ω ^ i * (ω ^ 2) ^ (i * j) := by
    rw [← pow_mul, ← pow_add]
    ring_nf
  rw [hneg, hpow]
  ring

/-- The polynomial with coefficients `c 0, …, c (n - 1)`. -/
noncomputable def polyOf (n : ℕ) (c : ℕ → R) : R[X] := ∑ i ∈ range n, C (c i) * X ^ i

theorem eval_polyOf (n : ℕ) (c : ℕ → R) (x : R) :
    (polyOf n c).eval x = ∑ i ∈ range n, c i * x ^ i := by
  simp [polyOf, eval_finsetSum]

theorem eval_polyOf_pow (n : ℕ) (c : ℕ → R) (ω : R) (j : ℕ) :
    (polyOf n c).eval (ω ^ j) = dft ω n c j := by
  rw [eval_polyOf, dft]
  apply sum_congr rfl
  intro i _
  rw [← pow_mul, Nat.mul_comm j i]

theorem degree_polyOf_lt (n : ℕ) (c : ℕ → R) : (polyOf n c).degree < n := by
  refine lt_of_le_of_lt (degree_sum_le _ _) ?_
  apply (Finset.sup_lt_iff (WithBot.bot_lt_coe n)).mpr
  intro i hi
  exact lt_of_le_of_lt (degree_C_mul_X_pow_le i (c i)) (WithBot.coe_lt_coe.mpr (mem_range.mp hi))

theorem polyOf_pad {n m : ℕ} (hnm : n ≤ m) {c d : ℕ → R} (hlow : ∀ i < n, d i = c i)
    (hhigh : ∀ i, n ≤ i → i < m → d i = 0) : polyOf m d = polyOf n c := by
  obtain ⟨k, rfl⟩ := Nat.exists_eq_add_of_le hnm
  rw [polyOf, sum_range_add, polyOf]
  have hpad : ∑ i ∈ range k, C (d (n + i)) * X ^ (n + i) = 0 :=
    sum_eq_zero fun i hi => by
      rw [hhigh (n + i) (by omega) (by have := mem_range.mp hi; omega), C_0, zero_mul]
  rw [hpad, add_zero]
  exact sum_congr rfl fun i hi => by rw [hlow i (mem_range.mp hi)]

end Ring

section Field

variable {F : Type*} [Field F] {ω : F} {n : ℕ}

theorem pow_half_eq_neg_one {h : ℕ} (hh : 0 < h) (hω : IsPrimitiveRoot ω (h + h)) : ω ^ h = -1 := by
  have hroot : IsPrimitiveRoot (ω ^ h) 2 := hω.pow (by omega) (by ring)
  exact hroot.eq_neg_one_of_two_right

theorem sum_pow_mul_inv (hω : IsPrimitiveRoot ω n) {i j : ℕ} (hi : i < n) (hj : j < n) :
    ∑ k ∈ range n, (ω⁻¹) ^ (i * k) * ω ^ (k * j) = if i = j then (n : F) else 0 := by
  have hω0 : ω ≠ 0 := hω.ne_zero (by omega)
  have hterm : ∀ k, (ω⁻¹) ^ (i * k) * ω ^ (k * j) = (ω⁻¹ ^ i * ω ^ j) ^ k := by
    intro k
    rw [mul_pow, ← pow_mul, ← pow_mul, Nat.mul_comm k j]
  simp only [hterm]
  split_ifs with hij
  · subst hij
    have hone : ω⁻¹ ^ i * ω ^ i = 1 := by rw [← mul_pow, inv_mul_cancel₀ hω0, one_pow]
    simp only [hone, one_pow, sum_const, card_range, nsmul_eq_mul, mul_one]
  · have hne : ω⁻¹ ^ i * ω ^ j ≠ 1 := by
      intro hone
      rw [inv_pow] at hone
      have hpow : ω ^ j = ω ^ i := by
        rw [inv_mul_eq_one₀ (pow_ne_zero i hω0)] at hone
        exact hone.symm
      exact hij (hω.pow_inj hi hj hpow.symm)
    have hroot : (ω⁻¹ ^ i * ω ^ j) ^ n = 1 := by
      rw [mul_pow, ← pow_mul, ← pow_mul, Nat.mul_comm i n, Nat.mul_comm j n, pow_mul, pow_mul,
        hω.pow_eq_one, inv_pow, hω.pow_eq_one]
      simp
    have hgeom := geom_sum_mul (ω⁻¹ ^ i * ω ^ j) n
    rw [hroot, sub_self] at hgeom
    exact (mul_eq_zero.mp hgeom).resolve_right (sub_ne_zero.mpr hne)

theorem dft_inverse (hω : IsPrimitiveRoot ω n) (hn : (n : F) ≠ 0) (y : ℕ → F) {j : ℕ} (hj : j < n) :
    dft ω n (fun k => dft ω⁻¹ n y k * (n : F)⁻¹) j = y j := by
  have hswap : dft ω n (fun k => dft ω⁻¹ n y k * (n : F)⁻¹) j =
      ∑ i ∈ range n, y i * (n : F)⁻¹ * ∑ k ∈ range n, (ω⁻¹) ^ (i * k) * ω ^ (k * j) := by
    simp only [dft, sum_mul, mul_sum]
    rw [sum_comm]
    exact sum_congr rfl fun i _ => sum_congr rfl fun k _ => by ring
  rw [hswap, sum_eq_single j]
  · rw [sum_pow_mul_inv hω hj hj, if_pos rfl, mul_assoc, inv_mul_cancel₀ hn, mul_one]
  · intro i hi hne
    rw [sum_pow_mul_inv hω (mem_range.mp hi) hj, if_neg hne, mul_zero]
  · intro hmem
    exact absurd (mem_range.mpr hj) hmem

/-- The sums of the powers of `u` and of `-u` determine `u`, already through these two products. -/
theorem eq_of_geom_products (htwo : (2 : F) ≠ 0) {u v : F} (hn : Even n) (hu : u ^ n ≠ 1) (hv : v ^ n ≠ 1)
    (hsq : (∑ i ∈ range n, u ^ i) * ∑ i ∈ range n, u ^ i = (∑ i ∈ range n, v ^ i) * ∑ i ∈ range n, v ^ i)
    (hmix : (∑ i ∈ range n, u ^ i) * ∑ i ∈ range n, (-u) ^ i =
      (∑ i ∈ range n, v ^ i) * ∑ i ∈ range n, (-v) ^ i) : u = v := by
  have hA := geom_sum_mul u n
  have hB := geom_sum_mul (-u) n
  have hA' := geom_sum_mul v n
  have hB' := geom_sum_mul (-v) n
  rw [hn.neg_pow] at hB hB'
  generalize ∑ i ∈ range n, u ^ i = A at *
  generalize ∑ i ∈ range n, v ^ i = A' at *
  generalize ∑ i ∈ range n, (-u) ^ i = B at *
  generalize ∑ i ∈ range n, (-v) ^ i = B' at *
  have hA0 : A ≠ 0 := by
    rintro rfl
    rw [zero_mul] at hA
    exact hu (sub_eq_zero.mp hA.symm)
  have hcross : A' * B = A * B' := by
    apply mul_left_cancel₀ hA0
    linear_combination A' * hmix - B' * hsq
  have hleft : A' * B * ((v - 1) * (-u - 1)) = (v ^ n - 1) * (u ^ n - 1) := by
    rw [← hA', ← hB]
    ring
  have hright : A * B' * ((u - 1) * (-v - 1)) = (u ^ n - 1) * (v ^ n - 1) := by
    rw [← hA, ← hB']
    ring
  have hlinear : (u ^ n - 1) * (v ^ n - 1) * (2 * (u - v)) = 0 := by
    linear_combination (u - 1) * (-v - 1) * hleft - (v - 1) * (-u - 1) * hright -
      (v - 1) * (-u - 1) * ((u - 1) * (-v - 1)) * hcross
  have hne := mul_ne_zero (sub_ne_zero.mpr hu) (sub_ne_zero.mpr hv)
  have hzero := (mul_eq_zero.mp hlinear).resolve_left hne
  exact sub_eq_zero.mp ((mul_eq_zero.mp hzero).resolve_left htwo)

end Field

end PrioPlus.Lib
