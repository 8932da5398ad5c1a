import Mathlib.Data.ZMod.Units
import Mathlib.RingTheory.Int.Basic
import PrioPlus.Hash
import PrioPlus.Lib.MultiplyShift

/-!
# Pairs of hashes

For a range of `2 ^ w_bits` the hash of `x` is the multiply-shift hash of its coefficients (`eval_drawnStore`). Two
inputs that are the same multiple of numbers of different parity have a uniform pair of hashes
(`pairUniform_of_parity`). Other inputs need not: unless the range is one, or two with at most two input bits, the
inputs `1` and `3` or the inputs `1` and `5` have not (`not_pairUniform_one_three`, `not_pairUniform_one_five`).
-/

namespace PrioPlus

open Finset Lib.MultiplyShift

/-- A seed that draws `c.1` and `c.2` as the coefficients of each function. -/
def HashSeed.ofCoeffs (c : ℕ × ℕ) : HashSeed := { draw := fun _ _ _ _ j => if j = 0 then c.1 else c.2 }

/-- The store that the constructor makes from the coefficients that it draws, for the range `2 ^ wBits`. -/
def drawnStore (d lBits wBits : ℕ) (c : ℕ × ℕ) : HashStore := HashStore.new (HashSeed.ofCoeffs c) d lBits (2 ^ wBits)

/-- The coefficients that the constructor can draw. -/
def coeffPairs (lBits wBits : ℕ) : Finset (ℕ × ℕ) := range (2 ^ wBits) ×ˢ range (2 ^ lBits)

/-- Each pair of hashes comes from the same number of coefficients, and the hashes are equal for at most one in
`2 ^ wBits`. -/
def PairUniform (d lBits wBits : ℕ) (i x y : UInt32) : Prop :=
  (∀ u < 2 ^ wBits, ∀ v < 2 ^ wBits,
    #{c ∈ coeffPairs lBits wBits |
      (drawnStore d lBits wBits c).eval i x = (u : ℕ) ∧ (drawnStore d lBits wBits c).eval i y = (v : ℕ)} =
    2 ^ lBits / 2 ^ wBits) ∧
  2 ^ wBits * #{c ∈ coeffPairs lBits wBits |
      (drawnStore d lBits wBits c).eval i x = (drawnStore d lBits wBits c).eval i y} ≤ #(coeffPairs lBits wBits)

/-- The hashes are pairwise independent. -/
def PairwiseIndependent (d lBits wBits : ℕ) : Prop :=
  ∀ i x y : UInt32, x.toNat < 2 ^ lBits → y.toNat < 2 ^ lBits → x ≠ y → PairUniform d lBits wBits i x y

section Pairs

variable {d lBits wBits : ℕ} {i x y : UInt32}

theorem eval_drawnStore (hl : lBits ≤ 63) (hle : wBits ≤ lBits) (c : ℕ × ℕ) :
    (drawnStore d lBits wBits c).eval i x = (shiftHash (2 ^ (lBits - wBits)) (2 ^ wBits) c x.toNat : ℕ) := by
  rcases Nat.eq_zero_or_pos wBits with rfl | hpos
  · have hrange := (drawnStore d lBits 0 c).eval_range Nat.one_pos i x
    have hone : ((drawnStore d lBits 0 c).w : ℤ) = 1 := rfl
    rw [hone] at hrange
    rw [shiftHash, pow_zero, Nat.mod_one]
    omega
  · have hbits := HashStore.bitsOf_two_pow hpos (hle.trans hl)
    have hsplit : 2 ^ lBits = 2 ^ (lBits - wBits) * 2 ^ wBits := by rw [← pow_add, Nat.sub_add_cancel hle]
    rw [drawnStore, HashStore.eval_new (HashSeed.ofCoeffs c) d hl (hbits.trans_le hle) i x rfl rfl, hbits, shiftHash,
      hsplit, Nat.mod_mul_right_div_self, Nat.mod_add_mod]

theorem card_collisions (hl : lBits ≤ 63) (hle : wBits ≤ lBits)
    (h : ∀ u < 2 ^ wBits, ∀ v < 2 ^ wBits,
      #{c ∈ coeffPairs lBits wBits |
        (drawnStore d lBits wBits c).eval i x = (u : ℕ) ∧ (drawnStore d lBits wBits c).eval i y = (v : ℕ)} =
      2 ^ lBits / 2 ^ wBits) :
    #{c ∈ coeffPairs lBits wBits |
      (drawnStore d lBits wBits c).eval i x = (drawnStore d lBits wBits c).eval i y} = 2 ^ lBits := by
  rw [card_eq_sum_card_fiberwise (f := fun c => shiftHash (2 ^ (lBits - wBits)) (2 ^ wBits) c x.toNat)
    (t := range (2 ^ wBits)) fun c _ => mem_coe.mpr (mem_range.mpr (Nat.mod_lt _ (Nat.two_pow_pos _)))]
  have hfibre : ∀ u ∈ range (2 ^ wBits),
      #{c ∈ {c ∈ coeffPairs lBits wBits |
          (drawnStore d lBits wBits c).eval i x = (drawnStore d lBits wBits c).eval i y} |
        shiftHash (2 ^ (lBits - wBits)) (2 ^ wBits) c x.toNat = u} = 2 ^ lBits / 2 ^ wBits := by
    intro u hu
    rw [← h u (mem_range.mp hu) u (mem_range.mp hu), filter_filter]
    refine congrArg card (filter_congr fun c _ => ?_)
    rw [eval_drawnStore hl hle, eval_drawnStore hl hle, Nat.cast_inj, Nat.cast_inj, Nat.cast_inj]
    exact ⟨fun ⟨heq, hu⟩ => ⟨hu, heq ▸ hu⟩, fun ⟨hx, hy⟩ => ⟨hx.trans hy.symm, hx⟩⟩
  rw [sum_congr rfl hfibre, sum_const, card_range, smul_eq_mul, Nat.mul_div_cancel' (pow_dvd_pow 2 hle)]

/-- The pairs of values come from as many coefficients as their difference comes from multipliers. -/
theorem card_evals (hl : lBits ≤ 63) (hle : wBits ≤ lBits) {u v : ℕ} (hu : u < 2 ^ wBits) (hv : v < 2 ^ wBits) :
    #{c ∈ coeffPairs lBits wBits |
      (drawnStore d lBits wBits c).eval i x = (u : ℕ) ∧ (drawnStore d lBits wBits c).eval i y = (v : ℕ)} =
    #{a | difference (2 ^ (lBits - wBits)) (2 ^ wBits) x.toNat y.toNat a = (u - v : ZMod (2 ^ wBits))} := by
  have hsplit : 2 ^ lBits = 2 ^ (lBits - wBits) * 2 ^ wBits := by rw [← pow_add, Nat.sub_add_cancel hle]
  simp only [eval_drawnStore hl hle, Nat.cast_inj]
  rw [coeffPairs, hsplit, card_hash_pair _ _ hu hv]

theorem pairUniform_iff (hl : lBits ≤ 63) (hle : wBits ≤ lBits) :
    PairUniform d lBits wBits i x y ↔
      ∀ v, #{a | difference (2 ^ (lBits - wBits)) (2 ^ wBits) x.toNat y.toNat a = v} = 2 ^ (lBits - wBits) := by
  have hquotient : 2 ^ lBits / 2 ^ wBits = 2 ^ (lBits - wBits) := Nat.pow_div hle Nat.two_pos
  constructor
  · rintro ⟨hpairs, -⟩ v
    have hpair := hpairs v.val (ZMod.val_lt v) 0 (Nat.two_pow_pos _)
    rw [card_evals hl hle (ZMod.val_lt v) (Nat.two_pow_pos _), hquotient, ZMod.natCast_zmod_val, Nat.cast_zero,
      sub_zero] at hpair
    exact hpair
  · intro h
    have hpairs : ∀ u < 2 ^ wBits, ∀ v < 2 ^ wBits,
        #{c ∈ coeffPairs lBits wBits |
          (drawnStore d lBits wBits c).eval i x = (u : ℕ) ∧ (drawnStore d lBits wBits c).eval i y = (v : ℕ)} =
        2 ^ lBits / 2 ^ wBits := fun u hu v hv => by rw [card_evals hl hle hu hv, h, hquotient]
    refine ⟨hpairs, ?_⟩
    rw [card_collisions hl hle hpairs, coeffPairs, card_product, card_range, card_range]

theorem pairUniform_of_parity (hl : lBits ≤ 63) {s x' y' : ℕ} (hle : s + wBits ≤ lBits) (hx : x.toNat = 2 ^ s * x')
    (hy : y.toNat = 2 ^ s * y') (hparity : x' % 2 ≠ y' % 2) : PairUniform d lBits wBits i x y := by
  refine (pairUniform_iff hl (by omega)).mpr fun v => ?_
  have hshift : ∀ z z' : ℕ, z = 2 ^ s * z' → 2 ^ (lBits - wBits - s) * z = 2 ^ (lBits - wBits) * z' := by
    rintro z z' rfl
    rw [← mul_assoc, ← pow_add, Nat.sub_add_cancel (by omega)]
  have hodd : Odd ((x' : ℤ) - y') := Int.odd_iff.mpr (by omega)
  have hunit : IsUnit (x' - y' : ZMod (2 ^ wBits)) := by
    have h := (ZMod.coe_int_isUnit_iff_isCoprime (x' - y') (2 ^ wBits)).mpr
      (by exact_mod_cast (Int.isCoprime_two_left.mpr hodd).pow_left)
    exact_mod_cast h
  exact card_difference_of_unit (hshift _ _ hx) (hshift _ _ hy) hunit v

end Pairs

/-! ### Pairs that are not uniform -/

section Irregular

variable {d lBits wBits : ℕ} (hl : lBits ≤ 63)
include hl

theorem not_pairUniform_one_three (hpos : 1 ≤ wBits) (hle : wBits ≤ lBits) (hne : lBits ≠ wBits + 1) (i : UInt32) :
    ¬ PairUniform d lBits wBits i 1 3 := by
  intro h
  have htwo : 2 ^ (lBits - wBits) ≠ 2 := by
    intro hpow
    have := Nat.pow_right_injective le_rfl (hpow.trans (pow_one 2).symm)
    omega
  have hlt := card_difference_one_three_lt (V := 2 ^ wBits) (even_two.pow_of_ne_zero (by omega)) htwo
  exact hlt.ne ((pairUniform_iff hl hle).mp h (-1))

theorem not_pairUniform_one_five (hpos : 1 ≤ wBits) (heq : lBits = wBits + 1) (i : UInt32) :
    ¬ PairUniform d lBits wBits i 1 5 := by
  intro h
  have hcard := (pairUniform_iff hl (by omega)).mp h (-1)
  have htwo : 2 ^ (lBits - wBits) = 2 := by rw [heq, Nat.add_sub_cancel_left, pow_one]
  obtain ⟨a, ha⟩ := card_pos.mp (hcard.symm ▸ Nat.two_pow_pos (lBits - wBits))
  exact difference_one_five_ne (V := 2 ^ wBits) (even_two.pow_of_ne_zero (by omega)) htwo a (mem_filter.mp ha).2

end Irregular

/-! ### When all pairs are uniform -/

theorem pairwiseIndependent_one (d : ℕ) {lBits : ℕ} (hl : lBits ≤ 63) : PairwiseIndependent d lBits 0 := by
  intro i x y _ _ _
  refine (pairUniform_iff hl (Nat.zero_le _)).mpr fun v => ?_
  have hsingle : Subsingleton (ZMod (2 ^ 0)) := inferInstanceAs (Subsingleton (ZMod 1))
  exact card_difference_of_unit (s := 2 ^ (lBits - 0)) rfl rfl (isUnit_of_subsingleton _) v

theorem pairwiseIndependent_two_bits (d : ℕ) : PairwiseIndependent d 2 1 := by
  intro i x y hx hy hne
  have hne' : x.toNat ≠ y.toNat := fun h => hne (UInt32.toNat_inj.mp h)
  by_cases hparity : x.toNat % 2 = y.toNat % 2
  · rcases Nat.mod_two_eq_zero_or_one x.toNat with heven | hodd
    · have hx2 : x.toNat = 2 ^ 1 * (x.toNat / 2) := by omega
      have hy2 : y.toNat = 2 ^ 1 * (y.toNat / 2) := by omega
      exact pairUniform_of_parity (by decide) le_rfl hx2 hy2 (by omega)
    · refine (pairUniform_iff (by decide) (by decide)).mpr ?_
      obtain ⟨hx, hy⟩ | ⟨hx, hy⟩ : x.toNat = 1 ∧ y.toNat = 3 ∨ x.toNat = 3 ∧ y.toNat = 1 := by omega
      · rw [hx, hy]
        decide
      · rw [hx, hy]
        decide
  · exact pairUniform_of_parity (s := 0) (by decide) (by decide) (by omega) (by omega) hparity

/-- The hashes are pairwise independent exactly for a range of one, and for a range of two with at most two input bits.
Inputs that are the same multiple of numbers of different parity have a uniform pair of hashes in any case. -/
theorem pairwiseIndependent_iff (d : ℕ) {lBits wBits : ℕ} (hl : lBits ≤ 63) (hle : wBits ≤ lBits) :
    (PairwiseIndependent d lBits wBits ↔ wBits = 0 ∨ wBits = 1 ∧ lBits ≤ 2) ∧
      ∀ (i x y : UInt32) (s x' y' : ℕ), s + wBits ≤ lBits → x.toNat = 2 ^ s * x' → y.toNat = 2 ^ s * y' →
        x' % 2 ≠ y' % 2 → PairUniform d lBits wBits i x y := by
  refine ⟨⟨fun h => ?_, ?_⟩, fun i x y s x' y' hs hx hy hparity => pairUniform_of_parity hl hs hx hy hparity⟩
  · by_contra hcond
    have hpos : 1 ≤ wBits := by omega
    have htwo : 2 ≤ lBits := by omega
    have hfour : 2 ^ 2 ≤ 2 ^ lBits := Nat.pow_le_pow_right Nat.two_pos htwo
    have hone : (1 : UInt32).toNat < 2 ^ lBits := (by decide : 1 < 2 ^ 2).trans_le hfour
    by_cases heq : lBits = wBits + 1
    · have height : 2 ^ 3 ≤ 2 ^ lBits := Nat.pow_le_pow_right Nat.two_pos (by omega)
      exact not_pairUniform_one_five hl hpos heq 0
        (h 0 1 5 hone ((by decide : 5 < 2 ^ 3).trans_le height) (by decide))
    · exact not_pairUniform_one_three hl hpos hle heq 0
        (h 0 1 3 hone ((by decide : 3 < 2 ^ 2).trans_le hfour) (by decide))
  · rintro (rfl | ⟨rfl, hsmall⟩)
    · exact pairwiseIndependent_one d hl
    · obtain rfl | rfl : lBits = 1 ∨ lBits = 2 := by omega
      · intro i x y hx hy hne
        have hne' : x.toNat ≠ y.toNat := fun h => hne (UInt32.toNat_inj.mp h)
        exact pairUniform_of_parity (s := 0) hl hle (one_mul _).symm (one_mul _).symm (by omega)
      · exact pairwiseIndependent_two_bits d

theorem pairwiseIndependent_iff_3_2 : ¬ PairwiseIndependent 1 3 2 := fun h =>
  absurd ((@pairwiseIndependent_iff 1 3 2 (by decide) (by decide)).1.mp h) (by decide)

/-- With three input bits and four buckets, the inputs `0` and `4` never have the hashes `0` and `1`, and have equal
hashes for half of the coefficients. -/
theorem not_pairwiseIndependent_3_2 :
    #{c ∈ coeffPairs 3 2 | (drawnStore 1 3 2 c).eval 0 0 = 0 ∧ (drawnStore 1 3 2 c).eval 0 4 = 1} = 0 ∧
      2 * #{c ∈ coeffPairs 3 2 | (drawnStore 1 3 2 c).eval 0 0 = (drawnStore 1 3 2 c).eval 0 4} =
        #(coeffPairs 3 2) ∧
      ¬ PairwiseIndependent 1 3 2 := by
  have hnever : #{c ∈ coeffPairs 3 2 | (drawnStore 1 3 2 c).eval 0 0 = 0 ∧ (drawnStore 1 3 2 c).eval 0 4 = 1} = 0 := by
    decide +kernel
  refine ⟨hnever, by decide +kernel, fun h => ?_⟩
  have hpair := (h 0 0 4 (by decide) (by decide) (by decide)).1 0 (by decide) 1 (by decide)
  rw [Nat.cast_zero, Nat.cast_one, hnever] at hpair
  exact absurd hpair (by decide)

end PrioPlus
