import Mathlib.Algebra.Order.BigOperators.Ring.Finset
import Mathlib.Data.Fintype.BigOperators
import PrioPlus.Lib.CountMin

/-!
# How far count-min tables count too many

A bucket counts, beside the key asked for, the other keys that collide with it (`bucket_eq_add_noise`). Over all draws
of the hash function this noise adds up to the collisions of the single pairs (`sum_noise`), so few draws make it large
(`mul_card_noise_le`). Rows that are drawn independently are all too large for a power of that share only
(`pow_mul_card_overestimates_le`).
-/

namespace PrioPlus.Lib.CountMin

open Finset

section Noise

variable {α β C : Type*} [DecidableEq α] [DecidableEq β]

/-- The other keys in the bucket of `a`. -/
def noise (h : α → β) (xs : List α) (a : α) : ℕ := (xs.filter (· ≠ a)).countP fun x => h x = h a

theorem bucket_eq_add_noise (h : α → β) (xs : List α) (a : α) :
    bucket h xs (h a) = xs.count a + noise h xs a := by
  induction xs with
  | nil => rfl
  | cons x xs ih =>
    rw [bucket, noise] at ih ⊢
    by_cases hx : x = a
    · subst hx
      simp [ih]
      omega
    · by_cases hh : h x = h a
      · simp [hx, hh, ih]
        omega
      · simp [hx, hh, ih]

/-- The draws that make two keys collide, for all the other keys of the list. -/
def collisions (h : C → α → β) (draws : Finset C) (xs : List α) (a : α) : ℕ :=
  ((xs.filter (· ≠ a)).map fun x => #{c ∈ draws | h c x = h c a}).sum

omit [DecidableEq α] in
theorem sum_countP (p : C → α → Prop) [∀ c, DecidablePred (p c)] (draws : Finset C) (xs : List α) :
    ∑ c ∈ draws, xs.countP (fun x => p c x) = (xs.map fun x => #{c ∈ draws | p c x}).sum := by
  induction xs with
  | nil => simp
  | cons x xs ih =>
    rw [List.map_cons, List.sum_cons, ← ih, card_filter, ← sum_add_distrib]
    refine sum_congr rfl fun c _ => ?_
    rw [List.countP_cons, add_comm]
    simp

theorem sum_noise (h : C → α → β) (draws : Finset C) (xs : List α) (a : α) :
    ∑ c ∈ draws, noise (h c) xs a = collisions h draws xs a := sum_countP _ _ _

section Gap

variable {K : Type*} [CommSemiring K] [LinearOrder K] [IsStrictOrderedRing K]

theorem mul_card_noise_le (h : C → α → β) (draws : Finset C) (xs : List α) (a : α) (gap : K) :
    gap * #{c ∈ draws | gap ≤ (noise (h c) xs a : K)} ≤ collisions h draws xs a := by
  calc gap * #{c ∈ draws | gap ≤ (noise (h c) xs a : K)}
      = #{c ∈ draws | gap ≤ (noise (h c) xs a : K)} • gap := by rw [nsmul_eq_mul, mul_comm]
    _ ≤ ∑ c ∈ draws with gap ≤ (noise (h c) xs a : K), (noise (h c) xs a : K) :=
      card_nsmul_le_sum _ _ _ fun c hc => (mem_filter.mp hc).2
    _ ≤ ∑ c ∈ draws, (noise (h c) xs a : K) :=
      sum_le_sum_of_subset_of_nonneg (filter_subset _ _) fun c _ _ => Nat.cast_nonneg _
    _ = collisions h draws xs a := by rw [← sum_noise, Nat.cast_sum]

variable {ι : Type*} [Fintype ι] [DecidableEq ι]

/-- The draws of all rows that make every row count `gap` too many. -/
def overestimates (h : ι → C → α → β) (draws : Finset C) (xs : List α) (a : α) (gap : K) : Finset (ι → C) :=
  {f ∈ Fintype.piFinset fun _ => draws | ∀ i, gap ≤ (noise (h i (f i)) xs a : K)}

omit [IsStrictOrderedRing K] in
theorem mem_overestimates {h : ι → C → α → β} {draws : Finset C} {xs : List α} {a : α} {gap : K} {f : ι → C} :
    f ∈ overestimates h draws xs a gap ↔
      (f ∈ Fintype.piFinset fun _ => draws) ∧ ∀ i, gap ≤ (noise (h i (f i)) xs a : K) := by
  rw [overestimates, mem_filter]

theorem pow_mul_card_overestimates_le (h : ι → C → α → β) (draws : Finset C) (xs : List α) (a : α) {gap : K}
    (hgap : 0 ≤ gap) {bound : ℕ} (hbound : ∀ i, collisions (h i) draws xs a ≤ bound) :
    gap ^ Fintype.card ι * #(overestimates h draws xs a gap) ≤ (bound : K) ^ Fintype.card ι := by
  have hpi : overestimates h draws xs a gap =
      Fintype.piFinset fun i => {c ∈ draws | gap ≤ (noise (h i c) xs a : K)} := by
    ext f
    simp only [mem_overestimates, mem_filter, Fintype.mem_piFinset, forall_and]
  rw [hpi, Fintype.card_piFinset, Nat.cast_prod, ← card_univ, ← prod_const, ← prod_const, ← prod_mul_distrib]
  refine prod_le_prod (fun i _ => mul_nonneg hgap (Nat.cast_nonneg _)) fun i _ => ?_
  exact (mul_card_noise_le (h i) draws xs a gap).trans (by exact_mod_cast hbound i)

end Gap

end Noise

end PrioPlus.Lib.CountMin
