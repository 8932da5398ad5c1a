import Mathlib.Data.Int.Interval
import Mathlib.GroupTheory.SpecificGroups.Cyclic
import PrioPlus.Lib.MultiplyShift

/-!
# Collisions of multiply-shift hashes

Two inputs collide when the multiplier brings their difference near to zero modulo `M * W`. The multiples that a
multiplier can reach are those of the greatest common divisor `g` of the difference and the modulus, and it reaches
each of them `g` times at most (`card_solutions_le`), so at most `max (2 * M) g` multipliers make the inputs collide
(`card_difference_zero_le`).
-/

namespace PrioPlus.Lib.MultiplyShift

open Finset

section Solutions

variable {N : ℕ}

theorem gcd_nsmul_eq_zero {δ : ℤ} {a : ZMod N} (ha : a * δ = 0) : Int.gcd δ N • a = 0 := by
  have hbezout := congrArg (Int.cast : ℤ → ZMod N) (Int.gcd_eq_gcd_ab δ N)
  push_cast at hbezout
  rw [ZMod.natCast_self, zero_mul, add_zero] at hbezout
  rw [nsmul_eq_mul, hbezout, mul_right_comm, mul_comm _ a, ha, zero_mul]

variable [NeZero N]

theorem gcd_pos (δ : ℤ) : 0 < Int.gcd δ N := Int.gcd_pos_of_ne_zero_right _ (by exact_mod_cast NeZero.ne N)

/-- A linear equation has at most as many solutions as the greatest common divisor of its factor and the modulus. -/
theorem card_solutions_le (δ : ℤ) (b : ZMod N) : #{a : ZMod N | a * δ = b} ≤ Int.gcd δ N := by
  rcases ({a : ZMod N | a * δ = b} : Finset (ZMod N)).eq_empty_or_nonempty with hnone | ⟨a₀, ha₀⟩
  · rw [hnone, card_empty]
    exact Nat.zero_le _
  · rw [mem_filter_univ] at ha₀
    have hmap : Set.MapsTo (· - a₀) ({a : ZMod N | a * δ = b} : Finset (ZMod N))
        ({a : ZMod N | Int.gcd δ N • a = 0} : Finset (ZMod N)) := by
      intro a ha
      rw [mem_coe, mem_filter_univ] at ha ⊢
      apply gcd_nsmul_eq_zero
      rw [sub_mul, ha, ha₀, sub_self]
    exact (card_le_card_of_injOn _ hmap (sub_left_injective.injOn)).trans
      (IsAddCyclic.card_nsmul_eq_zero_le (gcd_pos δ))

theorem gcd_dvd_of_mul_eq {δ k : ℤ} {a : ZMod N} (h : a * δ = k) : (Int.gcd δ N : ℤ) ∣ k := by
  have hval : ((a.val * δ : ℤ) : ZMod N) = (k : ℤ) := by
    rw [← h, Int.cast_mul, Int.cast_natCast, ZMod.natCast_zmod_val]
  have hN := (Int.gcd_dvd_right δ N).trans ((ZMod.intCast_eq_intCast_iff_dvd_sub _ _ _).mp hval)
  exact (Int.dvd_iff_dvd_of_dvd_sub hN).mpr ((Int.gcd_dvd_left δ N).mul_left _)

theorem card_near_le {δ : ℤ} {M : ℕ} {s : Finset (ZMod N)} (h : ∀ a ∈ s, ∃ k : ℤ, k.natAbs < M ∧ a * δ = k) :
    #s ≤ (2 * ((M - 1) / Int.gcd δ N) + 1) * Int.gcd δ N := by
  have hpos := gcd_pos (N := N) δ
  have hsubset : s ⊆ (Icc (-((M - 1) / Int.gcd δ N : ℕ) : ℤ) ((M - 1) / Int.gcd δ N : ℕ)).biUnion
      fun j => {a | a * δ = (Int.gcd δ N * j : ℤ)} := by
    intro a ha
    obtain ⟨k, hk, hmul⟩ := h a ha
    obtain ⟨j, rfl⟩ := gcd_dvd_of_mul_eq hmul
    have hj : j.natAbs ≤ (M - 1) / Int.gcd δ N := by
      rw [Nat.le_div_iff_mul_le hpos, mul_comm]
      rw [Int.natAbs_mul, Int.natAbs_natCast] at hk
      exact Nat.le_pred_of_lt hk
    exact mem_biUnion.mpr ⟨j, mem_Icc.mpr (by omega), (mem_filter_univ _).mpr hmul⟩
  have hcard : #(Icc (-((M - 1) / Int.gcd δ N : ℕ) : ℤ) ((M - 1) / Int.gcd δ N : ℕ)) =
      2 * ((M - 1) / Int.gcd δ N) + 1 := by
    rw [Int.card_Icc]
    omega
  rw [← hcard]
  exact (card_le_card hsubset).trans (card_biUnion_le_card_mul _ _ _ fun j _ => card_solutions_le _ _)

end Solutions

section Collisions

variable {M W : ℕ} [NeZero M] [NeZero W]

theorem exists_near_of_difference {x y : ℕ} {a : ZMod (M * W)} (h : difference M W x y a = 0) :
    ∃ k : ℤ, k.natAbs < M ∧ a * ((x - y : ℤ) : ZMod (M * W)) = k := by
  have hdigit : ∀ z : ZMod (M * W), z.val / M < W := fun z => Nat.div_lt_of_lt_mul (ZMod.val_lt z)
  rw [difference, sub_eq_zero, top, top, ZMod.natCast_eq_natCast_iff', Nat.mod_eq_of_lt (hdigit _),
    Nat.mod_eq_of_lt (hdigit _)] at h
  refine ⟨(a * x).val - (a * y).val, ?_, ?_⟩
  · have hx := Nat.div_add_mod (a * x).val M
    have hy := Nat.div_add_mod (a * y).val M
    have hx' := Nat.mod_lt (a * x).val (NeZero.pos M)
    have hy' := Nat.mod_lt (a * y).val (NeZero.pos M)
    rw [h] at hx
    omega
  · push_cast
    rw [ZMod.natCast_zmod_val, ZMod.natCast_zmod_val, mul_sub]

theorem near_multiples_le {M g : ℕ} (hM : 0 < M) (h : g ∣ M ∨ M ≤ g) : (2 * ((M - 1) / g) + 1) * g ≤ max (2 * M) g := by
  rcases h with ⟨c, rfl⟩ | hle
  · have hg : 0 < g := Nat.pos_of_mul_pos_right hM
    have hc : 0 < c := Nat.pos_of_mul_pos_left hM
    have hdiv : (g * c - 1) / g = c - 1 := by
      rw [Nat.div_eq_iff hg]
      obtain ⟨c, rfl⟩ := Nat.exists_eq_succ_of_ne_zero hc.ne'
      rw [Nat.succ_sub_one, Nat.mul_succ, mul_comm]
      omega
    rw [hdiv]
    refine le_max_of_le_left ?_
    calc (2 * (c - 1) + 1) * g ≤ 2 * c * g := Nat.mul_le_mul_right g (by omega)
      _ = 2 * (g * c) := by ring
  · rw [Nat.div_eq_of_lt (by omega), mul_zero, zero_add, one_mul]
    exact le_max_right _ _

theorem card_difference_zero_le (x y : ℕ)
    (h : Int.gcd (x - y) (M * W : ℕ) ∣ M ∨ M ≤ Int.gcd (x - y) (M * W : ℕ)) :
    #{a | difference M W x y a = 0} ≤ max (2 * M) (Int.gcd (x - y) (M * W : ℕ)) := by
  refine (card_near_le fun a ha => ?_).trans (near_multiples_le (NeZero.pos M) h)
  rw [mem_filter_univ] at ha
  exact exists_near_of_difference ha

end Collisions

end PrioPlus.Lib.MultiplyShift
