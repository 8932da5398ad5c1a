import PrioPlus.Correlated.Generate

/-!
# Conversion by daBits

What `b2a_daBit_single` and `b2a_daBit_multi` return on a supply of daBits are shares of the values
(`b2aDaBit_correct`), and they do return when the 32-bit counters get through.
-/

namespace PrioPlus

open Finset Lib.TwoParty Lib.FlatLoop

/-- The daBits that the two servers take one after the other, residues as `makeLocalDaBit` and `generateDaBit` leave
them. -/
structure DaBitSupply where
  d0 : ℕ → DaBit
  d1 : ℕ → DaBit
  correlated : CorrelatedDaBits d0 d1
  inRange0 : ∀ i, (d0 i).InRange
  inRange1 : ∀ i, (d1 i).InRange

/-- What server 0 makes alone in lazy mode. -/
def DaBitSupply.ofDraws (draws : ℕ → LocalDraw) : DaBitSupply where
  d0 i := (makeLocalDaBit (draws i)).1
  d1 i := (makeLocalDaBit (draws i)).2
  correlated i := correlated_makeLocalDaBit (draws i)
  inRange0 i := (inRange_makeLocalDaBit (draws i)).1
  inRange1 i := (inRange_makeLocalDaBit (draws i)).2

/-! ### Correct conversions -/

/-- Shares of `n` values, all of them residues. -/
structure SharesOf (n : ℕ) (value : ℕ → ℕ) (out0 out1 : List ℤ) : Prop where
  length0 : out0.length = n
  length1 : out1.length = n
  sum : ∀ i, i < n → out0.getD i 0 + out1.getD i 0 ≡ value i [ZMOD intModulus]
  range : ∀ v ∈ out0 ++ out1, 0 ≤ v ∧ v < intModulus

/-- Both servers return when the counters fit, and whatever they return are shares of the values. -/
structure ConvertsTo (fits : Prop) (n : ℕ) (value : ℕ → ℕ) (p0 p1 : Server (List ℤ)) : Prop where
  returns : fits → ∃ out0 out1, Terminates p0 p1 out0 out1
  shares : ∀ out0 out1, Terminates p0 p1 out0 out1 → SharesOf n value out0 out1

theorem ConvertsTo.of_terminates {fits : Prop} {n : ℕ} {value : ℕ → ℕ} {p0 p1 : Server (List ℤ)} {out0 out1 : List ℤ}
    (h : Terminates p0 p1 out0 out1) (hshares : SharesOf n value out0 out1) : ConvertsTo fits n value p0 p1 where
  returns _ := ⟨out0, out1, h⟩
  shares out0' out1' h' := by
    obtain ⟨rfl, rfl⟩ := h.unique h'
    exact hshares

theorem ConvertsTo.of_hangs {fits : Prop} (hfits : ¬ fits) {n : ℕ} {value : ℕ → ℕ} {p0 p1 : Server (List ℤ)}
    (h : Hangs p0 p1) : ConvertsTo fits n value p0 p1 where
  returns hyes := absurd hyes hfits
  shares out0 out1 hterm := absurd hterm (h.not_terminates out0 out1)

/-! ### The results are shares -/

theorem daBitShares_range {serverNum : ℕ} {dabits : ℕ → DaBit} (hrange : ∀ i, (dabits i).InRange)
    (vThis vOther : List Bool) : ∀ v ∈ daBitShares serverNum dabits vThis vOther, 0 ≤ v ∧ v < intModulus := by
  have hpos : (0 : ℤ) < intModulus := by decide
  intro v hv
  obtain ⟨i, -, rfl⟩ := List.mem_map.mp hv
  split_ifs
  · exact ⟨Int.emod_nonneg _ hpos.ne', Int.emod_lt_of_pos _ hpos⟩
  · exact hrange i

theorem multiSums_range (n : ℕ) (numBits : ℕ → ℕ) (tmp : List ℤ) :
    ∀ v ∈ multiSums n numBits tmp, 0 ≤ v ∧ v < intModulus := by
  intro v hv
  obtain ⟨i, -, rfl⟩ := List.mem_map.mp hv
  exact sumMod_range (by decide) _ _

theorem forall_mem_append {α : Type} {P : α → Prop} {l l' : List α} (h : ∀ v ∈ l, P v) (h' : ∀ v ∈ l', P v) :
    ∀ v ∈ l ++ l', P v := by
  intro v hv
  rcases List.mem_append.mp hv with hv | hv
  · exact h v hv
  · exact h' v hv

theorem convertsTo_single (supply : DaBitSupply) {n : ℕ} (x0 x1 : Vector Bool n) :
    ConvertsTo (n < 2 ^ 32) n (fun i => (x0.toList.getD i false ^^ x1.toList.getD i false).toNat)
      (b2aDaBitSingle 0 supply.d0 x0.toList) (b2aDaBitSingle 1 supply.d1 x1.toList) := by
  have hlen0 : x0.toList.length = n := Vector.length_toList
  have hlen : x0.toList.length = x1.toList.length := by rw [Vector.length_toList, Vector.length_toList]
  by_cases hn : n < 2 ^ 32
  · refine ConvertsTo.of_terminates
      (b2aDaBitSingle_reaches supply.d0 supply.d1 hlen (by rwa [hlen0])).terminates ⟨?_, ?_, ?_, ?_⟩
    · simp [daBitShares, maskedBits]
    · simp [daBitShares, maskedBits]
    · intro i hi
      exact daBitShares_add supply.correlated hlen (by rwa [Vector.length_toList])
    · exact forall_mem_append (daBitShares_range supply.inRange0 _ _) (daBitShares_range supply.inRange1 _ _)
  · exact ConvertsTo.of_hangs hn (b2aDaBitSingle_hangs supply.d0 supply.d1 hlen (by rwa [hlen0]))

theorem convertsTo_multi (supply : DaBitSupply) {n : ℕ} {numBits : ℕ → ℕ} (hbits : ∀ i, i < n → numBits i ≤ 64)
    (x0 x1 : ℕ → ℤ) :
    ConvertsTo (n < 2 ^ 32 ∧ offset numBits n < 2 ^ 32) n (fun i => lowBits (numBits i) (Int.xor (x0 i) (x1 i)))
      (b2aDaBitMulti 0 supply.d0 n numBits x0) (b2aDaBitMulti 1 supply.d1 n numBits x1) := by
  by_cases hfits : n < 2 ^ 32 ∧ offset numBits n < 2 ^ 32
  · refine ConvertsTo.of_terminates
      (b2aDaBitMulti_reaches supply.d0 supply.d1 x0 x1 hfits.1 hfits.2).terminates ⟨?_, ?_, ?_, ?_⟩
    · simp [daBitMultiOut, multiSums]
    · simp [daBitMultiOut, multiSums]
    · intro i hi
      exact daBitMulti_reconstructs x0 x1 supply.correlated hi (hbits i hi)
    · exact forall_mem_append (multiSums_range _ _ _) (multiSums_range _ _ _)
  · exact ConvertsTo.of_hangs hfits (b2aDaBitMulti_hangs supply.d0 supply.d1 x0 x1 hfits)

/-- The two conversions turn xor shares into additive shares, whatever the supply, the widths and the values. -/
theorem b2aDaBit_correct (supply : DaBitSupply) (n : ℕ) {numBits : ℕ → ℕ} (hbits : ∀ i, i < n → numBits i ≤ 64) :
    (∀ x0 x1 : Vector Bool n,
      ConvertsTo (n < 2 ^ 32) n (fun i => (x0.toList.getD i false ^^ x1.toList.getD i false).toNat)
        (b2aDaBitSingle 0 supply.d0 x0.toList) (b2aDaBitSingle 1 supply.d1 x1.toList)) ∧
    ∀ x0 x1 : ℕ → ℤ,
      ConvertsTo (n < 2 ^ 32 ∧ offset numBits n < 2 ^ 32) n (fun i => lowBits (numBits i) (Int.xor (x0 i) (x1 i)))
        (b2aDaBitMulti 0 supply.d0 n numBits x0) (b2aDaBitMulti 1 supply.d1 n numBits x1) :=
  ⟨convertsTo_single supply, convertsTo_multi supply hbits⟩

theorem b2aDaBit_correct_twoWidths :
    let supply := DaBitSupply.ofDraws fun _ => { bit := true, r := 5, r_nonneg := by decide, r_lt := by decide }
    let numBits := fun i => if i = 0 then 3 else 64
    (∀ x0 x1 : Vector Bool 2,
      ConvertsTo (2 < 2 ^ 32) 2 (fun i => (x0.toList.getD i false ^^ x1.toList.getD i false).toNat)
        (b2aDaBitSingle 0 supply.d0 x0.toList) (b2aDaBitSingle 1 supply.d1 x1.toList)) ∧
    ∀ x0 x1 : ℕ → ℤ,
      ConvertsTo (2 < 2 ^ 32 ∧ offset numBits 2 < 2 ^ 32) 2 (fun i => lowBits (numBits i) (Int.xor (x0 i) (x1 i)))
        (b2aDaBitMulti 0 supply.d0 2 numBits x0) (b2aDaBitMulti 1 supply.d1 2 numBits x1) := by
  intro supply numBits
  refine b2aDaBit_correct supply 2 fun i _ => ?_
  show (if i = 0 then 3 else 64) ≤ 64
  split_ifs <;> omega

end PrioPlus
