import PrioPlus.Lib.Dft
import PrioPlus.Constants

/-!
# The radix-2 transform of `poly/fft.c`

`fftRecurse` is `fft_recurse` with its scratch arrays as local values, `fftInterpolate` is `fft_interpolate`. For
`n = 2 ^ k` points and the powers of a primitive `n`-th root the first computes the transform of
`PrioPlus.Lib.Dft` (`fftRecurse_eq_dft`), so the second evaluates a coefficient list at the roots of unity
(`fftInterpolate_eval`) or, over the inverse roots, recovers the coefficients of the polynomial with given values
there (`fftInterpolate_invert`).
-/

namespace PrioPlus

open Lib

/-- `fft_recurse`. The even outputs come from the sums of the two halves of `ys`, the odd ones from the
differences multiplied by `roots`, both over every other root. -/
def fftRecurse (mod n : ℕ) (roots ys : ℕ → ℤ) : ℕ → ℤ :=
  if n ≤ 1 then fun _ => ys 0
  else
    let half := n / 2
    let rootsSub := fun i => roots (2 * i)
    let even := fftRecurse mod half rootsSub fun i => (ys i + ys (i + half)) % mod
    let odd := fftRecurse mod half rootsSub fun i => (ys i - ys (i + half)) % mod * roots i % mod
    fun j => if j % 2 = 0 then even (j / 2) else odd (j / 2)
termination_by n

def fftInterpolate (mod n : ℕ) (roots ys : List ℤ) (invert : Bool) : List ℤ :=
  let out := fftRecurse mod n (roots.getD · 0) (ys.getD · 0)
  if invert then
    let nInverse := fmpzInvmod n mod
    (List.range n).map fun i => out i * nInverse % mod
  else (List.range n).map out

@[simp] theorem length_fftInterpolate (mod n : ℕ) (roots ys : List ℤ) (invert : Bool) :
    (fftInterpolate mod n roots ys invert).length = n := by
  cases invert <;> simp [fftInterpolate]

variable {p : ℕ}

theorem fftRecurse_succ (k : ℕ) (roots ys : ℕ → ℤ) (j : ℕ) :
    fftRecurse p (2 ^ (k + 1)) roots ys j =
      if j % 2 = 0 then
        fftRecurse p (2 ^ k) (fun i => roots (2 * i)) (fun i => (ys i + ys (i + 2 ^ k)) % p) (j / 2)
      else
        fftRecurse p (2 ^ k) (fun i => roots (2 * i))
          (fun i => (ys i - ys (i + 2 ^ k)) % p * roots i % p) (j / 2) := by
  have hlarge : ¬ 2 ^ (k + 1) ≤ 1 := by
    have := Nat.one_le_two_pow (n := k)
    rw [pow_succ]
    omega
  have hhalf : 2 ^ (k + 1) / 2 = 2 ^ k := by rw [pow_succ]; omega
  rw [fftRecurse, if_neg hlarge]
  simp only [hhalf]

theorem fftRecurse_eq_dft (k : ℕ) {ω : ZMod p} (hω : ∀ m, k = m + 1 → ω ^ 2 ^ m = -1) {roots : ℕ → ℤ}
    (hroots : ∀ i < 2 ^ k, (roots i : ZMod p) = ω ^ i) (ys : ℕ → ℤ) {j : ℕ} (hj : j < 2 ^ k) :
    ((fftRecurse p (2 ^ k) roots ys j : ℤ) : ZMod p) = dft ω (2 ^ k) (fun i => (ys i : ZMod p)) j := by
  induction k generalizing ω roots ys j with
  | zero =>
    obtain rfl : j = 0 := by simpa using hj
    simp [fftRecurse]
  | succ k ih =>
    have hneg : ω ^ 2 ^ k = -1 := hω k rfl
    have hdouble : 2 ^ (k + 1) = 2 ^ k + 2 ^ k := by rw [pow_succ]; ring
    have hsq : ∀ m, k = m + 1 → (ω ^ 2) ^ 2 ^ m = -1 := by
      rintro m rfl
      rw [← pow_mul, ← pow_succ', hneg]
    have hsub : ∀ i < 2 ^ k, ((roots (2 * i) : ℤ) : ZMod p) = (ω ^ 2) ^ i := by
      intro i hi
      rw [hroots (2 * i) (by omega), pow_mul]
    have hjlt : j / 2 < 2 ^ k := by omega
    rw [fftRecurse_succ]
    split_ifs with hpar
    · have hj2 : j = 2 * (j / 2) := by omega
      rw [ih hsq hsub _ hjlt, hj2, hdouble, dft_even hneg, ← hj2]
      refine dft_congr (fun i _ => ?_) _
      push_cast [cast_emod]
      rfl
    · have hj2 : j = 2 * (j / 2) + 1 := by omega
      rw [ih hsq hsub _ hjlt, hdouble]
      conv_rhs => rw [hj2, dft_odd hneg]
      refine dft_congr (fun i hi => ?_) _
      push_cast [cast_emod]
      rw [hroots i (by omega)]

section Field

variable [Fact p.Prime] {k : ℕ} {ω : ZMod p}

theorem pow_half_of_primitive (hω : IsPrimitiveRoot ω (2 ^ k)) : ∀ m, k = m + 1 → ω ^ 2 ^ m = -1 := by
  rintro m rfl
  refine pow_half_eq_neg_one (Nat.two_pow_pos m) ?_
  rwa [show 2 ^ m + 2 ^ m = 2 ^ (m + 1) by rw [pow_succ]; ring]

theorem fftInterpolate_eval (hω : IsPrimitiveRoot ω (2 ^ k)) {roots : List ℤ}
    (hroots : ∀ i < 2 ^ k, (roots.getD i 0 : ZMod p) = ω ^ i) (ys : List ℤ) {j : ℕ} (hj : j < 2 ^ k) :
    (((fftInterpolate p (2 ^ k) roots ys false).getD j 0 : ℤ) : ZMod p) =
      (polyOf (2 ^ k) fun i => (ys.getD i 0 : ZMod p)).eval (ω ^ j) := by
  simp only [fftInterpolate, Bool.false_eq_true, if_false]
  rw [getD_map_range, if_pos hj, fftRecurse_eq_dft k (pow_half_of_primitive hω) hroots _ hj, eval_polyOf_pow]

theorem fftInterpolate_invert (hω : IsPrimitiveRoot ω (2 ^ k)) {invroots : List ℤ}
    (hroots : ∀ i < 2 ^ k, (invroots.getD i 0 : ZMod p) = ω⁻¹ ^ i) (ys : List ℤ) {j : ℕ} (hj : j < 2 ^ k) :
    (polyOf (2 ^ k) fun i => ((fftInterpolate p (2 ^ k) invroots ys true).getD i 0 : ZMod p)).eval (ω ^ j) =
      (ys.getD j 0 : ZMod p) := by
  have hn : ((2 ^ k : ℕ) : ZMod p) ≠ 0 := hω.neZero'.out
  rw [eval_polyOf_pow, ← dft_inverse hω hn (fun i => (ys.getD i 0 : ZMod p)) hj]
  refine dft_congr (fun i hi => ?_) j
  simp only [fftInterpolate, if_true]
  rw [getD_map_range, if_pos hi, cast_emod, Int.cast_mul,
    fftRecurse_eq_dft k (pow_half_of_primitive hω.inv) hroots _ hi, cast_fmpzInvmod]
  simp

end Field

end PrioPlus
