import Mathlib.Algebra.BigOperators.Fin
import Mathlib.Algebra.Polynomial.Roots
import Mathlib.Data.Fintype.BigOperators
import Mathlib.RingTheory.SimpleRing.Principal
import Mathlib.Tactic.LinearCombination

/-!
# Random linear checks over a finite field

A vector of values is checked to be zero through one random linear combination of its entries. A nonzero vector
survives for at most `|F| ^ m` of the `|F| ^ (m + 1)` coefficient vectors (`card_linear_zero_le`). When the vector
depends on a random point and vanishes at the points of a set `B` at most, counting pairs of a point and a
coefficient vector adds the two ways to pass (`card_pairs_le`).
-/

namespace PrioPlus.Lib

open Finset Polynomial

variable {F : Type*} [Field F] [Fintype F] [DecidableEq F] {m : ℕ}

/-- The coefficient of a nonzero entry is determined by the others. -/
theorem card_linear_zero_le {z : Fin (m + 1) → F} (hz : z ≠ 0) :
    (univ.filter fun r : Fin (m + 1) → F => ∑ i, r i * z i = 0).card ≤ Fintype.card F ^ m := by
  obtain ⟨j, hj⟩ := Function.ne_iff.mp hz
  have hcard : (univ : Finset (Fin m → F)).card = Fintype.card F ^ m := by simp
  rw [← hcard]
  refine card_le_card_of_injOn (fun r i => r (j.succAbove i)) (fun r _ => mem_univ _) ?_
  intro r hr r' hr' hsame
  have hr : ∑ i, r i * z i = 0 := (mem_filter.mp hr).2
  have hr' : ∑ i, r' i * z i = 0 := (mem_filter.mp hr').2
  have hothers : ∀ i, r (j.succAbove i) = r' (j.succAbove i) := fun i => congrFun hsame i
  rw [Fin.sum_univ_succAbove _ j] at hr hr'
  have hmul : r j * z j = r' j * z j := by
    have hsum := sum_congr (rfl : (univ : Finset (Fin m)) = univ) fun i _ =>
      congrArg (· * z (j.succAbove i)) (hothers i)
    linear_combination hr - hr' - hsum
  have hjeq : r j = r' j := mul_right_cancel₀ hj hmul
  funext i
  rcases eq_or_ne i j with rfl | hne
  · exact hjeq
  · obtain ⟨k, rfl⟩ := Fin.exists_succAbove_eq hne
    exact hothers k

/-- Pairs of a point and a coefficient vector that pass, when only the points of `B` can make the vector vanish. -/
theorem card_pairs_le {z : F → Fin (m + 1) → F} {B : Finset F} (hB : ∀ x, x ∉ B → z x ≠ 0) :
    (univ.filter fun xr : F × (Fin (m + 1) → F) => ∑ i, xr.2 i * z xr.1 i = 0).card ≤
      B.card * Fintype.card F ^ (m + 1) + Fintype.card F * Fintype.card F ^ m := by
  have hpoint : ∀ x, (univ.filter fun r : Fin (m + 1) → F => ∑ i, r i * z x i = 0).card ≤
      (if x ∈ B then Fintype.card F ^ (m + 1) else 0) + Fintype.card F ^ m := by
    intro x
    split_ifs with hx
    · refine (card_le_univ _).trans ?_
      simp
    · rw [Nat.zero_add]
      exact card_linear_zero_le (hB x hx)
  calc (univ.filter fun xr : F × (Fin (m + 1) → F) => ∑ i, xr.2 i * z xr.1 i = 0).card
      = ∑ x, (univ.filter fun r : Fin (m + 1) → F => ∑ i, r i * z x i = 0).card := by
        simp only [card_filter, Fintype.sum_prod_type]
    _ ≤ ∑ x, ((if x ∈ B then Fintype.card F ^ (m + 1) else 0) + Fintype.card F ^ m) :=
        sum_le_sum fun x _ => hpoint x
    _ = B.card * Fintype.card F ^ (m + 1) + Fintype.card F * Fintype.card F ^ m := by
        rw [sum_add_distrib, sum_ite_mem, univ_inter, sum_const, sum_const, smul_eq_mul, smul_eq_mul, card_univ]

omit [Fintype F] in
theorem card_roots_toFinset_le {P : F[X]} {d : ℕ} (hdeg : P.natDegree ≤ d) : P.roots.toFinset.card ≤ d :=
  (P.roots.toFinset_card_le.trans P.card_roots').trans hdeg

end PrioPlus.Lib
