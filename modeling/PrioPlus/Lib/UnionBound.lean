import Mathlib.Algebra.BigOperators.Ring.Finset
import Mathlib.Algebra.Order.BigOperators.Group.Finset
import Mathlib.Data.Fintype.BigOperators

/-!
# Bad draws, block by block

Independent draws, one for each block. When few draws of each single block are bad, outside few assignments no block is
bad (`exists_draws_good`), also when all blocks share one more draw (`exists_blocks_good`).
-/

namespace PrioPlus.Lib.UnionBound

open Finset

variable {ι X A : Type*} [Fintype ι] [DecidableEq ι] [Fintype X] [DecidableEq X] [Fintype A] [DecidableEq A]

omit [DecidableEq A] in
theorem card_filter_block (P : A → Prop) [DecidablePred P] (i : ι) :
    (univ.filter fun f : ι → A => P (f i)).card =
      (univ.filter fun a => P a).card * Fintype.card A ^ (Fintype.card ι - 1) := by
  have hpi : (univ.filter fun f : ι → A => P (f i)) =
      Fintype.piFinset fun j => if j = i then univ.filter fun a => P a else univ := by
    ext f
    simp only [mem_filter, mem_univ, true_and, Fintype.mem_piFinset]
    constructor
    · intro hf j
      split_ifs with hj
      · exact mem_filter.mpr ⟨mem_univ _, hj ▸ hf⟩
      · exact mem_univ _
    · intro hf
      have hi := hf i
      rw [if_pos rfl] at hi
      exact (mem_filter.mp hi).2
  have hrest : ∏ j ∈ univ.erase i, (if j = i then univ.filter fun a => P a else univ).card =
      Fintype.card A ^ (Fintype.card ι - 1) := by
    rw [prod_congr rfl fun j hj => by rw [if_neg (ne_of_mem_erase hj)], prod_const, card_erase_of_mem (mem_univ i),
      card_univ, card_univ]
  rw [hpi, Fintype.card_piFinset, ← mul_prod_erase univ _ (mem_univ i), if_pos rfl, hrest]

/-- The blocks may have different numbers of bad draws. -/
theorem exists_draws_good {P : ι → A → Prop} [∀ i, DecidablePred (P i)] {c : ι → ℕ}
    (h : ∀ i, (univ.filter fun a => P i a).card ≤ c i) :
    ∃ bad : Finset (ι → A), bad.card ≤ (∑ i, c i) * Fintype.card A ^ (Fintype.card ι - 1) ∧
      ∀ f ∉ bad, ∀ i, ¬ P i (f i) := by
  refine ⟨univ.biUnion fun i => univ.filter fun f => P i (f i), ?_, fun f hf i hi => hf ?_⟩
  · calc (univ.biUnion fun i => univ.filter fun f : ι → A => P i (f i)).card
        ≤ ∑ i, (univ.filter fun f : ι → A => P i (f i)).card := card_biUnion_le
      _ = (∑ i, (univ.filter fun a => P i a).card) * Fintype.card A ^ (Fintype.card ι - 1) := by
          rw [sum_mul]
          exact sum_congr rfl fun i _ => card_filter_block (P i) i
      _ ≤ (∑ i, c i) * Fintype.card A ^ (Fintype.card ι - 1) :=
          Nat.mul_le_mul_right _ (sum_le_sum fun i _ => h i)
  · exact mem_biUnion.mpr ⟨i, mem_univ i, mem_filter.mpr ⟨mem_univ _, hi⟩⟩

theorem exists_blocks_good {P : ι → X → A → Prop} [∀ i x, DecidablePred (P i x)] {c : ℕ}
    (h : ∀ i, (univ.filter fun xa : X × A => P i xa.1 xa.2).card ≤ c) :
    ∃ bad : Finset (X × (ι → A)), bad.card ≤ Fintype.card ι * (c * Fintype.card A ^ (Fintype.card ι - 1)) ∧
      ∀ xf ∉ bad, ∀ i, ¬ P i xf.1 (xf.2 i) := by
  have hblock : ∀ i, (univ.filter fun xf : X × (ι → A) => P i xf.1 (xf.2 i)).card ≤
      c * Fintype.card A ^ (Fintype.card ι - 1) := by
    intro i
    calc (univ.filter fun xf : X × (ι → A) => P i xf.1 (xf.2 i)).card
        = ∑ x, (univ.filter fun f : ι → A => P i x (f i)).card := by
          simp only [card_filter, Fintype.sum_prod_type]
      _ = (∑ x, (univ.filter fun a => P i x a).card) * Fintype.card A ^ (Fintype.card ι - 1) := by
          rw [sum_mul]
          exact sum_congr rfl fun x _ => card_filter_block (P i x) i
      _ = (univ.filter fun xa : X × A => P i xa.1 xa.2).card * Fintype.card A ^ (Fintype.card ι - 1) := by
          simp only [card_filter, Fintype.sum_prod_type]
      _ ≤ c * Fintype.card A ^ (Fintype.card ι - 1) := Nat.mul_le_mul_right _ (h i)
  refine ⟨univ.biUnion fun i => univ.filter fun xf => P i xf.1 (xf.2 i),
    card_biUnion_le_card_mul _ _ _ fun i _ => hblock i, fun xf hxf i hi => hxf ?_⟩
  exact mem_biUnion.mpr ⟨i, mem_univ i, mem_filter.mpr ⟨mem_univ _, hi⟩⟩

end PrioPlus.Lib.UnionBound
