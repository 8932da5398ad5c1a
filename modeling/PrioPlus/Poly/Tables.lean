import PrioPlus.Poly.Fft

/-!
# What a transform takes from its table

`fft_recurse` reads the table `roots` only where it is called; the calls below work on copies. `fftReads` are the
entries it reads (`fftRecurse_congr`). Some outputs do not depend on the roots at all: output `0` is the sum of the
input (`fftRecurse_zero`), and an impulse at `0` or at half the size spreads with signs only
(`fftRecurse_impulse_zero`, `fftRecurse_impulse_half`).
-/

namespace PrioPlus

open Finset

/-- The indices into `roots` that `fft_recurse` reads for `n` points: every other entry to copy it, then the factors
of the odd half. -/
def fftReads (n : ℕ) : List ℕ :=
  if n ≤ 1 then [] else (List.range (n / 2)).map (2 * ·) ++ List.range (n / 2)

theorem mem_fftReads {n i : ℕ} (hn : 1 < n) : i ∈ fftReads n ↔ (∃ j < n / 2, 2 * j = i) ∨ i < n / 2 := by
  rw [fftReads, if_neg (by omega)]
  simp

theorem lt_of_mem_fftReads {n i : ℕ} (hi : i ∈ fftReads n) : i < n := by
  by_cases hn : 1 < n
  · rcases (mem_fftReads hn).mp hi with ⟨j, hj, rfl⟩ | hlt <;> omega
  · rw [fftReads, if_pos (by omega)] at hi
    exact absurd hi List.not_mem_nil

variable {p : ℕ}

theorem fftRecurse_congr {n : ℕ} (hn : 0 < n) {roots roots' ys ys' : ℕ → ℤ}
    (hroots : ∀ i ∈ fftReads n, roots i = roots' i) (hys : ∀ i < n, ys i = ys' i) :
    fftRecurse p n roots ys = fftRecurse p n roots' ys' := by
  induction n using Nat.strong_induction_on generalizing roots roots' ys ys' with
  | _ n ih =>
    rw [fftRecurse, fftRecurse]
    by_cases hone : n ≤ 1
    · rw [if_pos hone, if_pos hone, hys 0 hn]
    · have hlt : 1 < n := by omega
      have hhalf : 0 < n / 2 := by omega
      have hsub : ∀ i ∈ fftReads (n / 2), roots (2 * i) = roots' (2 * i) := fun i hi =>
        hroots _ ((mem_fftReads hlt).mpr (Or.inl ⟨i, lt_of_mem_fftReads hi, rfl⟩))
      have hsum : ∀ i < n / 2, (ys i + ys (i + n / 2)) % p = (ys' i + ys' (i + n / 2)) % p := by
        intro i hi
        rw [hys i (by omega), hys (i + n / 2) (by omega)]
      have hdiff : ∀ i < n / 2, (ys i - ys (i + n / 2)) % p * roots i % p =
          (ys' i - ys' (i + n / 2)) % p * roots' i % p := by
        intro i hi
        rw [hys i (by omega), hys (i + n / 2) (by omega), hroots i ((mem_fftReads hlt).mpr (Or.inr hi))]
      have heven := ih (n / 2) (by omega) hhalf hsub hsum
      have hodd := ih (n / 2) (by omega) hhalf hsub hdiff
      rw [if_neg hone, if_neg hone]
      simp only [heven, hodd]

theorem fftInterpolate_congr {n : ℕ} (hn : 0 < n) {roots roots' : List ℤ}
    (hroots : ∀ i ∈ fftReads n, roots.getD i 0 = roots'.getD i 0) (ys : List ℤ) (invert : Bool) :
    fftInterpolate p n roots ys invert = fftInterpolate p n roots' ys invert := by
  unfold fftInterpolate
  rw [fftRecurse_congr hn hroots fun _ _ => rfl]

/-! ### Outputs that do not depend on the roots -/

theorem fftRecurse_zero (k : ℕ) (roots ys : ℕ → ℤ) :
    ((fftRecurse p (2 ^ k) roots ys 0 : ℤ) : ZMod p) = ∑ i ∈ range (2 ^ k), (ys i : ZMod p) := by
  induction k generalizing roots ys with
  | zero => simp [fftRecurse]
  | succ k ih =>
    have hdouble : 2 ^ (k + 1) = 2 ^ k + 2 ^ k := by rw [pow_succ]; ring
    rw [fftRecurse_succ, if_pos (Nat.zero_mod 2), Nat.zero_div, ih, hdouble, sum_range_add, ← sum_add_distrib]
    refine sum_congr rfl fun i _ => ?_
    rw [cast_emod, Int.cast_add, Nat.add_comm]

theorem fftRecurse_one (k : ℕ) (roots ys : ℕ → ℤ) :
    ((fftRecurse p (2 ^ (k + 1)) roots ys 1 : ℤ) : ZMod p) =
      ∑ i ∈ range (2 ^ k), ((ys i : ZMod p) - ys (i + 2 ^ k)) * roots i := by
  have hodd : ¬ 1 % 2 = 0 := by decide
  rw [fftRecurse_succ, if_neg hodd, Nat.div_eq_of_lt one_lt_two, fftRecurse_zero]
  refine sum_congr rfl fun i _ => ?_
  push_cast [cast_emod]
  rfl

theorem fftRecurse_halves (k : ℕ) {roots ys : ℕ → ℤ} (hone : (roots 0 : ZMod p) = 1)
    (hys : ∀ i, i ≠ 0 → i ≠ 2 ^ k → i < 2 ^ (k + 1) → (ys i : ZMod p) = 0)
    (hhalf : ∀ (half : ℕ → ℤ) (j : ℕ), (∀ i, 0 < i → i < 2 ^ k → (half i : ZMod p) = 0) → j < 2 ^ k →
      ((fftRecurse p (2 ^ k) (fun i => roots (2 * i)) half j : ℤ) : ZMod p) = half 0)
    {j : ℕ} (hj : j < 2 ^ (k + 1)) :
    ((fftRecurse p (2 ^ (k + 1)) roots ys j : ℤ) : ZMod p) = ys 0 + (-1) ^ j * ys (2 ^ k) := by
  have hpos := Nat.two_pow_pos k
  have hdouble : 2 ^ (k + 1) = 2 ^ k + 2 ^ k := by rw [pow_succ]; ring
  rw [fftRecurse_succ]
  split_ifs with hpar
  · rw [hhalf _ _ (fun i hi hlt => ?_) (by omega), cast_emod, Int.cast_add, Nat.zero_add,
      Even.neg_one_pow (Nat.even_iff.mpr hpar), one_mul]
    rw [cast_emod, Int.cast_add, hys i (by omega) (by omega) (by omega),
      hys (i + 2 ^ k) (by omega) (by omega) (by omega), add_zero]
  · rw [hhalf _ _ (fun i hi hlt => ?_) (by omega), cast_emod, Int.cast_mul, cast_emod, Int.cast_sub, Nat.zero_add, hone,
      mul_one, Odd.neg_one_pow (Nat.odd_iff.mpr (by omega)), neg_one_mul, sub_eq_add_neg]
    rw [cast_emod, Int.cast_mul, cast_emod, Int.cast_sub, hys i (by omega) (by omega) (by omega),
      hys (i + 2 ^ k) (by omega) (by omega) (by omega), sub_zero, zero_mul]

theorem fftRecurse_impulse_zero (k : ℕ) {roots ys : ℕ → ℤ} (hone : (roots 0 : ZMod p) = 1)
    (hys : ∀ i, 0 < i → i < 2 ^ k → (ys i : ZMod p) = 0) {j : ℕ} (hj : j < 2 ^ k) :
    ((fftRecurse p (2 ^ k) roots ys j : ℤ) : ZMod p) = ys 0 := by
  induction k generalizing roots ys j with
  | zero => simp [fftRecurse]
  | succ k ih =>
    have hlt : 2 ^ k < 2 ^ (k + 1) := Nat.pow_lt_pow_right one_lt_two (Nat.lt_succ_self k)
    rw [fftRecurse_halves k hone (fun i hi _ => hys i (Nat.pos_of_ne_zero hi)) (fun half j hhalf hj => ?_) hj,
      hys (2 ^ k) (Nat.two_pow_pos k) hlt, mul_zero, add_zero]
    exact @ih (fun i => roots (2 * i)) half hone hhalf j hj

theorem fftRecurse_impulse_half (k : ℕ) {roots ys : ℕ → ℤ} (hone : (roots 0 : ZMod p) = 1)
    (hys : ∀ i, i ≠ 2 ^ k → i < 2 ^ (k + 1) → (ys i : ZMod p) = 0) {j : ℕ} (hj : j < 2 ^ (k + 1)) :
    ((fftRecurse p (2 ^ (k + 1)) roots ys j : ℤ) : ZMod p) = (-1) ^ j * ys (2 ^ k) := by
  rw [fftRecurse_halves k hone (fun i _ => hys i) (fun half j hhalf hj => ?_) hj,
    hys 0 (Nat.two_pow_pos k).ne (Nat.two_pow_pos _), zero_add]
  exact @fftRecurse_impulse_zero p k (fun i => roots (2 * i)) half hone hhalf j hj

end PrioPlus
