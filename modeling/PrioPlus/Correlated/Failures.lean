import PrioPlus.Correlated
import PrioPlus.Lib.UnionBound
import PrioPlus.Ot.Hiding

/-!
# How often the conversion by oblivious transfer fails

Whether a sum passes `2 ^ 64` at bit `k` depends on the word drawn for this bit, up to about `2 ^ 20` residues at either
end of the modulus and the `2 ^ k` that the sender adds (`noWrap_of_not_risky`, `card_risky_le`). So the conversion is
right for all but few of the words of the generator (`exists_failing_words`), unless there are many values of many bits.
-/

namespace PrioPlus

open Finset Lib.FlatLoop

/-! ### One bit -/

/-- Words whose residue is one of the given ones. The residue of a word and its quotient, which is zero or one, make up
the word. -/
theorem card_filter_mask_le (q : ℕ → Prop) [DecidablePred q] :
    (univ.filter fun w : UInt64 => q (mask w)).card ≤ 2 * ((range intModulus).filter q).card := by
  have hmap : ∀ w ∈ univ.filter fun w : UInt64 => q (mask w),
      (w.toNat / intModulus, mask w) ∈ range 2 ×ˢ (range intModulus).filter q := by
    intro w hw
    have hquot : w.toNat / intModulus < 2 := by
      have hlt := w.toNat_lt
      have hp : 2 ^ 64 < 2 * intModulus := by decide
      exact Nat.div_lt_of_lt_mul (by omega)
    exact mem_product.mpr ⟨mem_range.mpr hquot, mem_filter.mpr ⟨mem_range.mpr (mask_lt w), (mem_filter.mp hw).2⟩⟩
  have hinj : Set.InjOn (fun w : UInt64 => (w.toNat / intModulus, mask w))
      (univ.filter fun w : UInt64 => q (mask w) : Finset UInt64) := by
    intro w _ w' _ heq
    obtain ⟨hquot, hrest⟩ := Prod.mk.inj heq
    apply UInt64.toNat_inj.mp
    rw [← Nat.div_add_mod w.toNat intModulus, ← Nat.div_add_mod w'.toNat intModulus, hquot]
    exact congrArg _ hrest
  refine (card_le_card_of_injOn _ hmap hinj).trans ?_
  rw [card_product, card_range]

section Bit

variable (x0 x1 : UInt64) (k : ℕ)

/-- What the choice adds to the mask, as in `chosenTerm`. -/
def chosenShift : ℕ :=
  if x1.toNat.testBit k then (if x0.toNat.testBit k then intModulus - 2 ^ k else 2 ^ k) else 0

/-- Within `2 ^ 20` of the modulus, from below. -/
def nearModulus (n : ℕ) : Prop := intModulus ≤ n % intModulus + 2 ^ 20 + 1

instance : DecidablePred nearModulus := fun _ => inferInstanceAs (Decidable (_ ≤ _))

/-- A word for bit `k` with which some sum could pass `2 ^ 64`: the offer, what the sender adds, or what the receiver
adds. -/
def riskyWord (w : UInt64) : Prop :=
  nearModulus (mask w + 0) ∨ mask w ≤ 2 ^ 20 + 1 + 2 ^ k ∨ nearModulus (mask w + chosenShift x0 x1 k)

instance : DecidablePred (riskyWord x0 x1 k) := fun _ => inferInstanceAs (Decidable (_ ∨ _ ∨ _))

theorem card_nearModulus_le (s : ℕ) :
    (univ.filter fun w : UInt64 => nearModulus (mask w + s)).card ≤ 2 * (2 ^ 20 + 1) := by
  have hmap : ∀ m ∈ (range intModulus).filter fun m => nearModulus (m + s),
      (m + s) % intModulus ∈ Ico (intModulus - (2 ^ 20 + 1)) intModulus := by
    intro m hm
    have hnear : intModulus ≤ (m + s) % intModulus + 2 ^ 20 + 1 := (mem_filter.mp hm).2
    exact mem_Ico.mpr ⟨by omega, Nat.mod_lt _ (by decide)⟩
  have hinj : Set.InjOn (fun m => (m + s) % intModulus)
      ((range intModulus).filter fun m => nearModulus (m + s) : Finset ℕ) := by
    intro m hm m' hm' heq
    have hm := mem_range.mp (mem_filter.mp hm).1
    have hm' := mem_range.mp (mem_filter.mp hm').1
    exact Nat.ModEq.eq_of_lt_of_lt (Nat.ModEq.add_right_cancel' s heq) hm hm'
  have hcard := card_le_card_of_injOn _ hmap hinj
  rw [Nat.card_Ico] at hcard
  exact (card_filter_mask_le fun m => nearModulus (m + s)).trans (Nat.mul_le_mul_left 2 (by omega))

theorem card_low_le : (univ.filter fun w : UInt64 => mask w ≤ 2 ^ 20 + 1 + 2 ^ k).card ≤ 2 * (2 ^ 20 + 2 + 2 ^ k) := by
  refine (card_filter_mask_le fun m => m ≤ 2 ^ 20 + 1 + 2 ^ k).trans (Nat.mul_le_mul_left 2 ?_)
  refine (card_le_card (t := range (2 ^ 20 + 2 + 2 ^ k)) fun m hm => ?_).trans (card_range _).le
  have hle := (mem_filter.mp hm).2
  exact mem_range.mpr (by omega)

theorem card_risky_le : (univ.filter fun w => riskyWord x0 x1 k w).card ≤ 2 ^ (k + 1) + 2 ^ 23 := by
  have hoffer := card_nearModulus_le 0
  have hsent := card_low_le k
  have hreceived := card_nearModulus_le (chosenShift x0 x1 k)
  have hpow : 2 ^ (k + 1) = 2 * 2 ^ k := pow_succ' 2 k
  have hsplit : (univ.filter fun w => riskyWord x0 x1 k w) ⊆
      (univ.filter fun w => nearModulus (mask w + 0)) ∪ ((univ.filter fun w => mask w ≤ 2 ^ 20 + 1 + 2 ^ k) ∪
        univ.filter fun w => nearModulus (mask w + chosenShift x0 x1 k)) := by
    intro w hw
    have hrisky : _ ∨ _ ∨ _ := (mem_filter.mp hw).2
    simpa only [mem_union, mem_filter, mem_univ, true_and] using hrisky
  have hcard := (card_le_card hsplit).trans ((card_union_le _ _).trans (Nat.add_le_add_left (card_union_le _ _) _))
  omega

end Bit

/-! ### One value -/

theorem two_pow_word : 2 ^ 64 + 2 ^ 20 + 2 = 2 * intModulus := by decide

theorem noWrap_of_not_risky {word : ℕ → UInt64} {x0 x1 : UInt64} {numBits : ℕ}
    (h : ∀ k < numBits, ¬ riskyWord x0 x1 k (word k)) : NoWrap word x0 x1 numBits := by
  have hp := two_pow_word
  have hparts : ∀ k < numBits, mask (word k) + 2 ^ 20 + 1 < intModulus ∧ 2 ^ 20 + 1 + 2 ^ k < mask (word k) ∧
      chosenTerm word x0 x1 k % intModulus + 2 ^ 20 + 1 < intModulus := by
    intro k hk
    obtain ⟨hoffer, hrest⟩ := not_or.mp (h k hk)
    obtain ⟨hsent, hreceived⟩ := not_or.mp hrest
    rw [Nat.add_zero, nearModulus, Nat.mod_eq_of_lt (mask_lt _)] at hoffer
    exact ⟨not_le.mp hoffer, not_le.mp hsent, not_le.mp hreceived⟩
  refine ⟨fun k hk _ _ => ?_, fun k hk => ?_, fun k hk => ?_⟩
  · have hoffer := (hparts k hk).1
    have hpos := Nat.two_pow_pos k
    omega
  · have hsent := (hparts k hk).2.1
    have hsum := Nat.mod_lt (∑ i ∈ range k, senderTerm word x0 i) (show 0 < intModulus by decide)
    have hbit := Nat.mul_le_mul_right (2 ^ k) (Bool.toNat_le (x0.toNat.testBit k))
    have hmask := mask_lt (word k)
    rw [senderTerm]
    omega
  · have hreceived := (hparts k hk).2.2
    have hsum := Nat.mod_lt (∑ i ∈ range k, chosenTerm word x0 x1 i) (show 0 < intModulus by decide)
    omega

/-! ### An array of values -/

/-- A generator that gives the words in order. -/
def prgOf {n : ℕ} (words : Fin n → UInt64) (k : ℕ) : UInt64 := if h : k < n then words ⟨k, h⟩ else 0

theorem prgOf_of_lt {n : ℕ} (words : Fin n → UInt64) {k : ℕ} (hk : k < n) : prgOf words k = words ⟨k, hk⟩ := dif_pos hk

section Array

variable (numShares numValues : ℕ) (numBits : ℕ → ℕ)

/-- How many bits there are in all. -/
def totalBits : ℕ := numShares * offset numBits numValues

/-- At most so many words are risky for some bit of a share. A value of `b` bits adds about `2 ^ (b + 1) + b * 2 ^ 23`. -/
def riskyWords : ℕ := ∑ j ∈ range numValues, ∑ k ∈ range (numBits j), (2 ^ (k + 1) + 2 ^ 23)

/-- How many words of the generator, out of `(2 ^ 64) ^ n` for `n` bits, can make the conversion fail. The bound says
something while `numShares * riskyWords` is below `2 ^ 64`. -/
def failingWords : ℕ :=
  numShares * riskyWords numValues numBits * (2 ^ 64) ^ (totalBits numShares numValues numBits - 1)

theorem sum_bounds : (flatBits numShares numValues numBits fun _ _ k => 2 ^ (k + 1) + 2 ^ 23).sum =
    numShares * riskyWords numValues numBits := by
  have hoffset : ∀ (f : ℕ → ℕ) n, offset f n = ∑ i ∈ range n, f i := by
    intro f n
    induction n with
    | zero => rfl
    | succ n ih => rw [offset_succ, sum_range_succ, ih]
  simp only [flatBits, sum_flatMap_range, offset_const, riskyWords, ← hoffset]
  rfl

variable {numShares numValues numBits} in
theorem exists_notMem_failing (hfew : numShares * riskyWords numValues numBits < 2 ^ 64)
    {failing : Finset (Fin (totalBits numShares numValues numBits) → UInt64)}
    (hcard : failing.card ≤ failingWords numShares numValues numBits) : ∃ words, words ∉ failing := by
  have hall : (univ : Finset (Fin (totalBits numShares numValues numBits) → UInt64)).card =
      (2 ^ 64) ^ totalBits numShares numValues numBits := by
    rw [card_univ, Fintype.card_fun, Fintype.card_fin, ← FinEnum.card_eq_fintypeCard, FinEnum.card_UInt64]
  have hlt : failing.card < (univ : Finset (Fin (totalBits numShares numValues numBits) → UInt64)).card := by
    rw [hall]
    refine hcard.trans_lt ?_
    rw [failingWords]
    cases hbits : totalBits numShares numValues numBits with
    | zero =>
      have hnone := List.eq_nil_of_length_eq_zero
        ((length_flatBits numShares numValues numBits fun _ _ k => 2 ^ (k + 1) + 2 ^ 23).trans hbits)
      rw [← sum_bounds, hnone]
      simp
    | succ n =>
      rw [Nat.add_sub_cancel, pow_succ' (2 ^ 64) n]
      exact Nat.mul_lt_mul_of_pos_right hfew (Nat.pow_pos (Nat.two_pow_pos 64))
  obtain ⟨words, -, hwords⟩ := exists_mem_notMem_of_card_lt_card hlt
  exact ⟨words, hwords⟩

theorem exists_failing_words (hbits : ∀ j < numValues, numBits j ≤ 63) (x0 x1 : List UInt64) :
    ∃ failing : Finset (Fin (totalBits numShares numValues numBits) → UInt64),
      failing.card ≤ failingWords numShares numValues numBits ∧
      ∀ words ∉ failing, Reconstructs numShares numValues numBits x0 x1
        (b2aOtOut0 (prgOf words) numShares numValues numBits x0 modWord)
        (b2aOtOut1 (prgOf words) numShares numValues numBits x0 x1 modWord) := by
  -- the risk at a position is that of the bit it belongs to
  let risks : List (UInt64 → Bool) := flatBits numShares numValues numBits fun i j k w =>
    decide (riskyWord (valueAt x0 numValues i j) (valueAt x1 numValues i j) k w)
  have hrisks : ∀ {i j k : ℕ}, i < numShares → j < numValues → k < numBits j →
      risks.getD (bitIdx numValues numBits i j k) (fun _ => false) = fun w =>
        decide (riskyWord (valueAt x0 numValues i j) (valueAt x1 numValues i j) k w) := by
    intro i j k hi hj hk
    rw [List.getD_eq_getElem?_getD, getElem?_flatBits _ _ _ _ hi hj hk, Option.getD_some]
  let bounds : List ℕ := flatBits numShares numValues numBits fun _ _ k => 2 ^ (k + 1) + 2 ^ 23
  have hcard : ∀ pos : Fin (totalBits numShares numValues numBits),
      (univ.filter fun w : UInt64 => risks.getD pos (fun _ => false) w = true).card ≤ bounds.getD pos 0 := by
    intro pos
    obtain ⟨i, hi, j, hj, k, hk, hpos⟩ := exists_bitIdx pos.isLt
    rw [hpos, hrisks hi hj hk, List.getD_eq_getElem?_getD, getElem?_flatBits _ _ _ _ hi hj hk, Option.getD_some]
    simp only [decide_eq_true_eq]
    exact card_risky_le _ _ k
  have hsum : ∑ pos : Fin (totalBits numShares numValues numBits), bounds.getD pos 0 = bounds.sum := by
    have hlen : bounds.length = totalBits numShares numValues numBits := length_flatBits _ _ _ _
    rw [← hlen, ← Fin.sum_univ_getElem]
    exact sum_congr rfl fun pos _ => List.getD_eq_getElem _ _ pos.isLt
  obtain ⟨failing, hfailing, hgood⟩ := Lib.UnionBound.exists_draws_good hcard
  rw [hsum, Fintype.card_fin, ← FinEnum.card_eq_fintypeCard, FinEnum.card_UInt64] at hfailing
  rw [sum_bounds] at hfailing
  refine ⟨failing, hfailing, fun words hwords => ?_⟩
  refine (reconstructs_b2aOt_iff _ x0 x1 hbits).mpr fun i hi j hj => ?_
  refine noWrap_of_not_risky fun k hk => ?_
  have hpos := bitIdx_lt hi hj hk
  have hsafe := hgood words hwords ⟨_, hpos⟩
  rw [hrisks hi hj hk, decide_eq_true_eq] at hsafe
  rw [prgOf_of_lt words hpos]
  exact hsafe

end Array

end PrioPlus
