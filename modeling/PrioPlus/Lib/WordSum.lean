import Mathlib.Algebra.BigOperators.Intervals
import Mathlib.Algebra.BigOperators.ModEq
import Mathlib.Algebra.Order.BigOperators.Group.Finset
import Mathlib.Data.Int.ModEq
import Mathlib.Tactic.Ring

/-!
# Modular sums on machine words

A loop adds terms to an accumulator in words modulo `B` and reduces modulo `p` after each addition. An addition that
passes `B` loses a `B`, which is not a multiple of `p`; so the result is off by `B` for each addition that wrapped
(`acc_add_wraps`). No addition wraps exactly when the reduced partial sums leave room for the next term
(`wraps_eq_zero_iff`), a condition on the terms alone. A term may stand for a negative number: as long as no partial sum
leaves the words, the accumulator is the sum of the numbers (`acc_eq_emod`).
-/

namespace PrioPlus.Lib.WordSum

open Finset

variable (B p : ℕ) (a : ℕ → ℕ)

/-- The accumulator after `n` additions. -/
def acc : ℕ → ℕ
  | 0 => 0
  | n + 1 => (acc n + a n) % B % p

/-- How many of the first `n` additions passed `B`. -/
def wraps (n : ℕ) : ℕ := ((range n).filter fun k => B ≤ acc B p a k + a k).card

variable {B p a}

theorem acc_congr {b : ℕ → ℕ} {n : ℕ} (h : ∀ k < n, a k = b k) : acc B p a n = acc B p b n := by
  induction n with
  | zero => rfl
  | succ n ih => rw [acc, acc, ih fun k hk => h k (Nat.lt_succ_of_lt hk), h n (Nat.lt_succ_self n)]

theorem wraps_succ (n : ℕ) : wraps B p a (n + 1) = wraps B p a n + if B ≤ acc B p a n + a n then 1 else 0 := by
  unfold wraps
  rw [range_add_one, filter_insert]
  split_ifs
  · rw [card_insert_of_notMem (by simp)]
  · rfl

theorem wraps_le (n : ℕ) : wraps B p a n ≤ n := (card_filter_le _ _).trans (card_range n).le

theorem acc_lt (hp : 0 < p) (n : ℕ) : acc B p a n < p := by
  cases n with
  | zero => exact hp
  | succ n => exact Nat.mod_lt _ hp

theorem mod_word {x : ℕ} (h : x < 2 * B) : x % B + B * (if B ≤ x then 1 else 0) = x := by
  split_ifs with hwrap
  · rw [Nat.mod_eq_sub_mod hwrap, Nat.mod_eq_of_lt (by omega)]
    omega
  · rw [Nat.mod_eq_of_lt (by omega)]
    omega

/-- A result that misses its value by `w` lost words is right when they are a multiple of `p` in all. -/
theorem modEq_iff_dvd_lost {s t w : ℕ} (h : s + B * w ≡ t [MOD p]) : s ≡ t [MOD p] ↔ p ∣ B * w := by
  rw [← Nat.modEq_zero_iff_dvd]
  constructor
  · intro hright
    exact Nat.ModEq.add_left_cancel hright (h.trans (by rfl))
  · intro hlost
    exact (hlost.add_left s).symm.trans h

theorem modEq_iff_lost_eq_zero {s t w : ℕ} (hcop : Nat.Coprime p B) (hlt : w < p) (h : s + B * w ≡ t [MOD p]) :
    s ≡ t [MOD p] ↔ w = 0 := by
  rw [modEq_iff_dvd_lost h]
  constructor
  · intro hdvd
    exact Nat.eq_zero_of_dvd_of_lt (hcop.dvd_of_dvd_mul_left hdvd) hlt
  · rintro rfl
    exact dvd_zero _

theorem acc_add_wraps (hp : 0 < p) {n : ℕ} (hterm : ∀ k < n, a k + p ≤ 2 * B) :
    acc B p a n + B * wraps B p a n ≡ ∑ k ∈ range n, a k [MOD p] := by
  induction n with
  | zero => exact Nat.ModEq.refl 0
  | succ n ih =>
    have hlt : acc B p a n + a n < 2 * B := by
      have := acc_lt (B := B) (a := a) hp n
      have := hterm n (Nat.lt_succ_self n)
      omega
    have hstep : acc B p a (n + 1) + B * (if B ≤ acc B p a n + a n then 1 else 0) ≡ acc B p a n + a n [MOD p] := by
      have hred : acc B p a (n + 1) ≡ (acc B p a n + a n) % B [MOD p] := Nat.mod_modEq _ _
      have hsum := hred.add_right (B * (if B ≤ acc B p a n + a n then 1 else 0))
      rwa [mod_word hlt] at hsum
    rw [wraps_succ, sum_range_succ, Nat.mul_add]
    have ih := ih fun k hk => hterm k (Nat.lt_succ_of_lt hk)
    calc acc B p a (n + 1) + (B * wraps B p a n + B * (if B ≤ acc B p a n + a n then 1 else 0))
        = acc B p a (n + 1) + B * (if B ≤ acc B p a n + a n then 1 else 0) + B * wraps B p a n := by ring
      _ ≡ acc B p a n + a n + B * wraps B p a n [MOD p] := hstep.add_right _
      _ = acc B p a n + B * wraps B p a n + a n := by ring
      _ ≡ ∑ k ∈ range n, a k + a n [MOD p] := ih.add_right _

theorem acc_eq_of_wraps_eq_zero {n : ℕ} (h : wraps B p a n = 0) : acc B p a n = (∑ k ∈ range n, a k) % p := by
  induction n with
  | zero => simp [acc]
  | succ n ih =>
    rw [wraps_succ] at h
    have hno : acc B p a n + a n < B := by
      by_contra hwrap
      rw [if_pos (not_lt.mp hwrap)] at h
      omega
    rw [acc, Nat.mod_eq_of_lt hno, ih (by omega), sum_range_succ, Nat.mod_add_mod]

theorem wraps_eq_zero_iff (n : ℕ) :
    wraps B p a n = 0 ↔ ∀ k < n, (∑ i ∈ range k, a i) % p + a k < B := by
  induction n with
  | zero => simp [wraps]
  | succ n ih =>
    rw [wraps_succ, Nat.add_eq_zero_iff, ih]
    constructor
    · rintro ⟨hbefore, hlast⟩ k hk
      rcases Nat.lt_succ_iff_lt_or_eq.mp hk with hlt | rfl
      · exact hbefore k hlt
      · rw [← acc_eq_of_wraps_eq_zero (ih.mpr hbefore)]
        by_contra hge
        rw [if_pos (not_lt.mp hge)] at hlast
        exact one_ne_zero hlast
    · intro hall
      have hbefore : ∀ k < n, (∑ i ∈ range k, a i) % p + a k < B := fun k hk => hall k (Nat.lt_succ_of_lt hk)
      refine ⟨hbefore, if_neg ?_⟩
      rw [acc_eq_of_wraps_eq_zero (ih.mpr hbefore)]
      exact not_le.mpr (hall n (Nat.lt_succ_self n))

/-- The words `a` stand for the numbers `c`, and each reduced partial sum of these has room for the next one, on both
sides. -/
theorem acc_eq_emod {c : ℕ → ℤ} {n : ℕ} (hterm : ∀ k < n, (a k : ℤ) ≡ c k [ZMOD B])
    (hroom : ∀ k < n, 0 ≤ (∑ i ∈ range k, c i) % p + c k ∧ (∑ i ∈ range k, c i) % p + c k < B) :
    (acc B p a n : ℤ) = (∑ i ∈ range n, c i) % p := by
  induction n with
  | zero => simp [acc]
  | succ n ih =>
    have hlast := hroom n (Nat.lt_succ_self n)
    have hbefore := ih (fun k hk => hterm k (Nat.lt_succ_of_lt hk)) fun k hk => hroom k (Nat.lt_succ_of_lt hk)
    have hword : ((acc B p a n + a n : ℕ) : ℤ) % B = (∑ i ∈ range n, c i) % p + c n := by
      have hsum := (hterm n (Nat.lt_succ_self n)).add_left (acc B p a n : ℤ)
      rw [Nat.cast_add, hsum, hbefore, Int.emod_eq_of_lt hlast.1 hlast.2]
    rw [acc, Int.natCast_emod, Int.natCast_emod, hword, sum_range_succ, Int.emod_add_emod]

end PrioPlus.Lib.WordSum
