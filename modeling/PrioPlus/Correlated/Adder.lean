import PrioPlus.Correlated.Triples
import PrioPlus.Lib.RippleCarry

/-!
# `addBinaryShares`

The loop over the bits handles all numbers at once and packs those that still have a bit into a shorter array for the
multiplication. Behind the shares it is the ripple-carry adder on each number: after `j` levels a number has carried
up to the smaller one of `j` and its length (`Adds`), and what it has then it keeps.
-/

namespace PrioPlus.CorrelatedStore

open Lib Lib.TwoParty Lib.FlatLoop Lib.RippleCarry

/-! ### The compacted index -/

section Active

variable {n : ℕ} {numBits : ℕ → ℕ} {i j : ℕ}

theorem mem_active : i ∈ active n numBits j ↔ i < n ∧ j < numBits i := by
  rw [active, List.mem_filter, List.mem_range, decide_eq_true_iff]

theorem getD_idxOf {l : List ℕ} (h : i ∈ l) : l.getD (l.idxOf i) 0 = i := by
  rw [List.getD_eq_getElem _ _ (List.idxOf_lt_length_of_mem h)]
  exact List.getElem_idxOf _

theorem le_maxBits (hi : i < n) : numBits i ≤ maxBits n numBits := by
  induction n with
  | zero => exact absurd hi (Nat.not_lt_zero i)
  | succ n ih =>
    rw [maxBits, List.range_succ, List.foldl_concat]
    change numBits i ≤ if numBits n > maxBits n numBits then numBits n else maxBits n numBits
    rcases Nat.lt_succ_iff_lt_or_eq.mp hi with hlt | rfl
    · have := ih hlt
      split_ifs <;> omega
    · split_ifs <;> omega

end Active

/-! ### The levels -/

theorem xor_xor_swap : ∀ a b c d : Bool, (a ^^ b ^^ (c ^^ d)) = (a ^^ c ^^ (b ^^ d)) := by decide

/-- The bits that two servers share. -/
def opened (b0 b1 : ℕ → Bool) (k : ℕ) : Bool := b0 k ^^ b1 k

section Levels

variable {n : ℕ} {numBits : ℕ → ℕ} {x0 y0 x1 y1 : ℕ → ℕ → Bool} {c0 c1 : (ℕ → Bool) × (ℕ → ℕ → Bool)}
  {z0 z1 : List Bool} {i j : ℕ}

variable (numBits x0 y0 x1 y1) in
/-- Number `i` has been added up to bit `j`, or to its end. -/
structure Adds (i j : ℕ) (c0 c1 : (ℕ → Bool) × (ℕ → ℕ → Bool)) : Prop where
  carry : (c0.1 i ^^ c1.1 i) = RippleCarry.carry (opened (x0 i) (x1 i)) (opened (y0 i) (y1 i)) (min j (numBits i))
  sums : ∀ k < min j (numBits i),
    (c0.2 i k ^^ c1.2 i k) = sumBit (opened (x0 i) (x1 i)) (opened (y0 i) (y1 i)) k

theorem getD_products (hmem : i ∈ active n numBits j)
    (hproducts : ∀ k < (active n numBits j).length, (z0.getD k false ^^ z1.getD k false) =
      ((levelFactors n numBits x0 j c0.1 k ^^ levelFactors n numBits x1 j c1.1 k) &&
        (levelFactors n numBits y0 j c0.1 k ^^ levelFactors n numBits y1 j c1.1 k))) :
    (z0.getD ((active n numBits j).idxOf i) false ^^ z1.getD ((active n numBits j).idxOf i) false) =
      (((c0.1 i ^^ c1.1 i) ^^ opened (x0 i) (x1 i) j) && ((c0.1 i ^^ c1.1 i) ^^ opened (y0 i) (y1 i) j)) := by
  rw [hproducts _ (List.idxOf_lt_length_of_mem hmem)]
  simp only [levelFactors, getD_idxOf hmem, opened]
  rw [xor_xor_swap, xor_xor_swap (c0.1 i) (y0 i j)]

/-- One level. A number that has no bit `j` keeps its carry and its sums. -/
theorem Adds.level (h : Adds numBits x0 y0 x1 y1 i j c0 c1) (hi : i < n)
    (hproducts : ∀ k < (active n numBits j).length, (z0.getD k false ^^ z1.getD k false) =
      ((levelFactors n numBits x0 j c0.1 k ^^ levelFactors n numBits x1 j c1.1 k) &&
        (levelFactors n numBits y0 j c0.1 k ^^ levelFactors n numBits y1 j c1.1 k))) :
    Adds numBits x0 y0 x1 y1 i (j + 1) (nextLevel n numBits x0 y0 j c0 z0) (nextLevel n numBits x1 y1 j c1 z1) := by
  by_cases hj : j < numBits i
  · have hmem : i ∈ active n numBits j := mem_active.mpr ⟨hi, hj⟩
    obtain ⟨hcarry, hsums⟩ := h
    rw [Nat.min_eq_left hj.le] at hcarry hsums
    have hproduct := getD_products hmem hproducts
    refine ⟨?_, fun k hk => ?_⟩
    · rw [Nat.min_eq_left hj, RippleCarry.carry, carryOut, ← hcarry]
      simp only [nextLevel, if_pos hmem]
      rw [xor_xor_swap, hproduct]
    · rw [Nat.min_eq_left hj] at hk
      rcases Nat.lt_succ_iff_lt_or_eq.mp hk with hlt | rfl
      · simp only [nextLevel, if_neg (fun h : k = j ∧ i ∈ active n numBits j => hlt.ne h.1)]
        exact hsums k hlt
      · simp only [nextLevel, hmem, and_self, if_true, sumBit, ← hcarry, opened]
        rw [xor_xor_swap, xor_xor_swap (c0.1 i)]
  · have hmem : i ∉ active n numBits j := fun hmem => hj (mem_active.mp hmem).2
    have hmin : min (j + 1) (numBits i) = min j (numBits i) := by omega
    constructor
    · simp only [nextLevel, if_neg hmem, hmin]
      exact h.carry
    · intro k hk
      simp only [nextLevel, if_neg (fun h : k = j ∧ i ∈ active n numBits j => hmem h.2)]
      exact h.sums k (hmin ▸ hk)

end Levels

/-! ### The sums -/

/-- The results on the two servers: the sums of the shared numbers, with the carries on top. -/
def SumShares (n : ℕ) (numBits : ℕ → ℕ) (x0 y0 x1 y1 : ℕ → ℕ → Bool) (c0 c1 : (ℕ → Bool) × (ℕ → ℕ → Bool)) : Prop :=
  ∀ i < n, value (numBits i) (opened (c0.2 i) (c1.2 i)) + 2 ^ numBits i * (c0.1 i ^^ c1.1 i).toNat =
    value (numBits i) (opened (x0 i) (x1 i)) + value (numBits i) (opened (y0 i) (y1 i))

variable (gen : Generation) (batchSize n : ℕ) (numBits : ℕ → ℕ) (x0 y0 x1 y1 : ℕ → ℕ → Bool)

/-- From aligned stores `addBinaryShares` returns shares of the sums and of the carries. -/
theorem addBinaryShares_computes :
    Computes (max n batchSize < 2 ^ 32 ∧ offset numBits n < 2 ^ 32) batchSize (addBinaryShares gen n numBits x0 y0)
      (addBinaryShares gen n numBits x1 y1) (SumShares n numBits x0 y0 x1 y1) := by
  apply Computes.of_lockstep
  refine (addBinaryShares_levels gen n numBits x0 y0 x1 y1
    (J := fun j c0 c1 => ∀ i < n, Adds numBits x0 y0 x1 y1 i j c0 c1) ?_ ?_ ?_).mono (fun _ _ _ hP => hP) ?_
  · intro j c0 c1 z0 z1 hJ hproducts i hi
    exact (hJ i hi).level hi hproducts
  · intro i _
    refine ⟨?_, fun k hk => ?_⟩
    · rw [Nat.zero_min]
      rfl
    · omega
  · intro hn
    exact ⟨rfl, by omega⟩
  · intro c0 c1 _ _ _ hJ i hi
    have hadds := hJ i hi
    have hend : min (maxBits n numBits) (numBits i) = numBits i := Nat.min_eq_right (le_maxBits hi)
    rw [hadds.carry, hend, ← value_sumBit_add_carry]
    congr 1
    exact value_congr fun k hk => hadds.sums k (by rwa [hend])

end PrioPlus.CorrelatedStore
