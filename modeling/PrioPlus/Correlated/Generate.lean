import PrioPlus.Correlated.Store

/-!
# `generateDaBit`

A daBit from one oblivious transfer: the offer of server 0 is a mask and the mask plus its bit, server 1 chooses with
its own bit, and both turn what they have into `b + 2 * (mod - x)`. This is right over the integers. On 64-bit words
the doubled mask of server 0 wraps from `2 ^ 63` on and that of server 1 close to zero, and the daBits are right
exactly when no mask is in one of these ranges (`generateMeets_iff`).
-/

namespace PrioPlus

open Lib.TwoParty Lib.WordSum

/-- `b0[i]` and `b1[i]`. -/
def generatePair (word : UInt64) (b : Bool) : UInt64 × UInt64 :=
  let b0 := word % modWord
  (b0, (b0 + b.toUInt64) % modWord)

/-- `x[i]` on server 0. -/
def generateX (word : UInt64) : UInt64 := modWord - word % modWord

/-- `bp`, from `b[i]` and `x[i]`. -/
def generateBp (b : Bool) (x : UInt64) : UInt64 := (b.toUInt64 + 2 * (modWord - x)) % modWord

/-- `generateDaBit`, from the bits and the words of `emp::PRG`. -/
def generateDaBit (serverNum N : ℕ) (b : ℕ → Bool) (prg : ℕ → UInt64) : Server (List DaBit) := do
  let dabits (x : List UInt64) : List DaBit :=
    (List.range N).map fun i => { bp := (generateBp (b i) (x.getD i 0)).toNat, b2 := b i }
  loopTo N
  if serverNum = 0 then do
    sendMsg (.ot ((List.range N).map fun i => generatePair (prg i) (b i)))
    return dabits ((List.range N).map fun i => generateX (prg i))
  else do
    let x ← otRecv ((List.range N).map b)
    return dabits x

/-- Both servers return `N` daBits, which are correlated and within the range of the modulus. -/
def GenerateMeets (N : ℕ) (b0 b1 : ℕ → Bool) (prg0 prg1 : ℕ → UInt64) : Prop :=
  ∃ out0 out1, Terminates (generateDaBit 0 N b0 prg0) (generateDaBit 1 N b1 prg1) out0 out1 ∧
    out0.length = N ∧ List.Forall₂ DaBit.Correlated out0 out1 ∧
    ∀ d ∈ out0 ++ out1, d.InRange

/-! ### One daBit -/

section Slot

variable (word : UInt64) (b0 b1 : Bool)

/-- The halves of one daBit. -/
def generated0 : DaBit := { bp := (generateBp b0 (generateX word)).toNat, b2 := b0 }

def generated1 : DaBit := { bp := (generateBp b1 (otChoose (generatePair word b0) b1)).toNat, b2 := b1 }

/-- The doubled masks of the two servers, before any reduction. -/
def doubled0 : ℕ := b0.toNat + 2 * mask word

def doubled1 : ℕ := b1.toNat + 2 * (intModulus - (mask word + (b0 && b1).toNat) % intModulus)

theorem toNat_generateBp (b : Bool) (x : UInt64) (hx : x.toNat ≤ intModulus) :
    (generateBp b x).toNat = (b.toNat + 2 * (intModulus - x.toNat)) % 2 ^ 64 % intModulus := by
  have hle : x ≤ modWord := UInt64.le_iff_toNat_le.mpr hx
  have hbit : b.toUInt64.toNat = b.toNat := by cases b <;> rfl
  rw [generateBp, UInt64.toNat_mod, UInt64.toNat_add, UInt64.toNat_mul, UInt64.toNat_sub_of_le _ _ hle, hbit,
    toNat_modWord, Nat.add_mod_mod]
  rfl

theorem toNat_generateX : (generateX word).toNat = intModulus - mask word := by
  have hle : word % modWord ≤ modWord := by
    rw [UInt64.le_iff_toNat_le, UInt64.toNat_mod, toNat_modWord]
    exact (mask_lt word).le
  rw [generateX, UInt64.toNat_sub_of_le _ _ hle, UInt64.toNat_mod, toNat_modWord]
  rfl

theorem toNat_otChoose_generatePair :
    (otChoose (generatePair word b0) b1).toNat = (mask word + (b0 && b1).toNat) % intModulus := by
  have hmask := mask_lt word
  have hp := two_pow_lt_intModulus
  have hfirst : (word % modWord).toNat = mask word := by rw [UInt64.toNat_mod, toNat_modWord, mask]
  cases b1 with
  | false =>
    rw [Bool.and_false, Bool.toNat_false, Nat.add_zero, Nat.mod_eq_of_lt hmask]
    exact hfirst
  | true =>
    have hbit : b0.toUInt64.toNat = b0.toNat := by cases b0 <;> rfl
    have hle := Bool.toNat_le b0
    have hsecond : (otChoose (generatePair word b0) true) = (word % modWord + b0.toUInt64) % modWord := rfl
    rw [hsecond, UInt64.toNat_mod, UInt64.toNat_add, hfirst, hbit, toNat_modWord, Bool.and_true,
      Nat.mod_eq_of_lt (show mask word + b0.toNat < 2 ^ 64 by omega)]

theorem bp_generated0 : (generated0 word b0).bp = (doubled0 word b0 % 2 ^ 64 % intModulus : ℕ) := by
  have hmask := mask_lt word
  have hX := toNat_generateX word
  rw [generated0, toNat_generateBp _ _ (by omega), hX, doubled0, Nat.sub_sub_self hmask.le]

theorem bp_generated1 : (generated1 word b0 b1).bp = (doubled1 word b0 b1 % 2 ^ 64 % intModulus : ℕ) := by
  have hlt : (mask word + (b0 && b1).toNat) % intModulus < intModulus := Nat.mod_lt _ (by decide)
  have hchosen := toNat_otChoose_generatePair word b0 b1
  rw [generated1, toNat_generateBp _ _ (by omega), hchosen, doubled1]

theorem inRange_generated : (generated0 word b0).InRange ∧ (generated1 word b0 b1).InRange := by
  have hpos : 0 < intModulus := by decide
  rw [DaBit.InRange, DaBit.InRange, bp_generated0, bp_generated1]
  exact ⟨⟨Int.natCast_nonneg _, Int.ofNat_lt.mpr (Nat.mod_lt _ hpos)⟩,
    Int.natCast_nonneg _, Int.ofNat_lt.mpr (Nat.mod_lt _ hpos)⟩

theorem doubled0_add_doubled1 : doubled0 word b0 + doubled1 word b0 b1 ≡ (b0 ^^ b1).toNat [MOD intModulus] := by
  have hlt : (mask word + (b0 && b1).toNat) % intModulus < intModulus := Nat.mod_lt _ (by decide)
  have hdiv := Nat.div_add_mod (mask word + (b0 && b1).toNat) intModulus
  have hxor : b0.toNat + b1.toNat = (b0 ^^ b1).toNat + 2 * (b0 && b1).toNat := by cases b0 <;> cases b1 <;> rfl
  have hsum : doubled0 word b0 + doubled1 word b0 b1 =
      (b0 ^^ b1).toNat + intModulus * (2 + 2 * ((mask word + (b0 && b1).toNat) / intModulus)) := by
    unfold doubled0 doubled1
    rw [Nat.mul_add, Nat.mul_left_comm]
    omega
  rw [hsum]
  exact Nat.add_mul_mod_self_left _ _ _

/-- How many of the two doubled masks passed `2 ^ 64`. -/
def doubledWraps : ℕ :=
  (if 2 ^ 64 ≤ doubled0 word b0 then 1 else 0) + if 2 ^ 64 ≤ doubled1 word b0 b1 then 1 else 0

theorem generated_add_wraps :
    doubled0 word b0 % 2 ^ 64 % intModulus + doubled1 word b0 b1 % 2 ^ 64 % intModulus +
        2 ^ 64 * doubledWraps word b0 b1 ≡ (b0 ^^ b1).toNat [MOD intModulus] := by
  have hp := two_pow_lt_intModulus
  have hmask := mask_lt word
  have hbit0 := Bool.toNat_le b0
  have hbit1 := Bool.toNat_le b1
  have hword0 := mod_word (B := 2 ^ 64) (x := doubled0 word b0) (by unfold doubled0; omega)
  have hword1 := mod_word (B := 2 ^ 64) (x := doubled1 word b0 b1) (by unfold doubled1; omega)
  calc doubled0 word b0 % 2 ^ 64 % intModulus + doubled1 word b0 b1 % 2 ^ 64 % intModulus +
        2 ^ 64 * doubledWraps word b0 b1
    _ ≡ doubled0 word b0 % 2 ^ 64 + doubled1 word b0 b1 % 2 ^ 64 + 2 ^ 64 * doubledWraps word b0 b1
          [MOD intModulus] := ((Nat.mod_modEq _ _).add (Nat.mod_modEq _ _)).add_right _
    _ = doubled0 word b0 + doubled1 word b0 b1 := by rw [doubledWraps, Nat.mul_add]; omega
    _ ≡ (b0 ^^ b1).toNat [MOD intModulus] := doubled0_add_doubled1 word b0 b1

theorem doubledWraps_eq_zero :
    doubledWraps word b0 b1 = 0 ↔ doubled0 word b0 < 2 ^ 64 ∧ doubled1 word b0 b1 < 2 ^ 64 := by
  unfold doubledWraps
  split_ifs <;> simp <;> omega

/-- Server 0 doubles a mask from `2 ^ 63` on past a word, and server 1 one that is close to zero. -/
theorem doubledWraps_eq_zero_iff :
    doubledWraps word b0 b1 = 0 ↔ mask word < 2 ^ 63 ∧ 2 ^ 19 + 2 ≤ mask word + (b0 && b1).toNat := by
  have hp : intModulus = 2 ^ 63 + 2 ^ 19 + 1 := rfl
  have hmask := mask_lt word
  have hand := Bool.toNat_le (b0 && b1)
  have hbit0 := Bool.toNat_le b0
  have hbit1 := Bool.toNat_le b1
  rw [doubledWraps_eq_zero]
  unfold doubled0 doubled1
  by_cases hlow : mask word < 2 ^ 63
  · rw [Nat.mod_eq_of_lt (show mask word + (b0 && b1).toNat < intModulus by omega)]
    omega
  · omega

theorem correlated_generated_iff : DaBit.Correlated (generated0 word b0) (generated1 word b0 b1) ↔
    mask word < 2 ^ 63 ∧ 2 ^ 19 + 2 ≤ mask word + (b0 && b1).toNat := by
  have hfew : doubledWraps word b0 b1 < intModulus := by
    have hp := two_pow_lt_intModulus
    unfold doubledWraps
    split_ifs <;> omega
  rw [DaBit.Correlated, bp_generated0, bp_generated1, ← Int.natCast_add, Int.natCast_modEq_iff,
    ← doubledWraps_eq_zero_iff]
  exact modEq_iff_lost_eq_zero (by decide) hfew (generated_add_wraps word b0 b1)

end Slot

/-! ### A batch -/

variable {N : ℕ} {b0 b1 : ℕ → Bool} {prg0 prg1 : ℕ → UInt64}

theorem generateDaBit_reaches (hN : N < 2 ^ 32) :
    Reaches (.start (generateDaBit 0 N b0 prg0) (generateDaBit 1 N b1 prg1))
      (.done ((List.range N).map fun i => generated0 (prg0 i) (b0 i))
        ((List.range N).map fun i => generated1 (prg0 i) (b0 i) (b1 i))) := by
  have hot := reaches_ot01 ((List.range N).map fun i => generatePair (prg0 i) (b0 i)) ((List.range N).map b1)
    (by simp)
  refine Reaches.bind (reaches_loopTo hN hN) ?_
  rw [if_pos rfl, if_neg one_ne_zero]
  apply Reaches.bind hot
  have hout0 : ∀ i ∈ List.range N, (DaBit.mk (generateBp (b0 i)
      (((List.range N).map fun i => generateX (prg0 i)).getD i 0)).toNat (b0 i)) = generated0 (prg0 i) (b0 i) := by
    intro i hi
    rw [getD_map_range, if_pos (List.mem_range.mp hi), generated0]
  have hout1 : ∀ i ∈ List.range N, (DaBit.mk (generateBp (b1 i) ((List.zipWith otChoose
      ((List.range N).map fun i => generatePair (prg0 i) (b0 i)) ((List.range N).map b1)).getD i 0)).toNat (b1 i)) =
      generated1 (prg0 i) (b0 i) (b1 i) := by
    intro i hi
    rw [List.zipWith_map, List.zipWith_self, getD_map_range, if_pos (List.mem_range.mp hi), generated1]
  rw [← List.map_congr_left hout0, ← List.map_congr_left hout1]
  exact Reaches.refl _

/-- The daBits are right exactly when the loops end and no mask doubles past a word. -/
theorem generateMeets_iff (N : ℕ) (b0 b1 : ℕ → Bool) (prg0 prg1 : ℕ → UInt64) :
    GenerateMeets N b0 b1 prg0 prg1 ↔
      N < 2 ^ 32 ∧ ∀ i < N, mask (prg0 i) < 2 ^ 63 ∧ 2 ^ 19 + 2 ≤ mask (prg0 i) + (b0 i && b1 i).toNat := by
  by_cases hN : N < 2 ^ 32
  · rw [GenerateMeets, (generateDaBit_reaches hN).terminates.exists_iff, and_iff_right hN]
    have hrange : ∀ d ∈ ((List.range N).map fun i => generated0 (prg0 i) (b0 i)) ++
        ((List.range N).map fun i => generated1 (prg0 i) (b0 i) (b1 i)), d.InRange := by
      intro d hd
      rcases List.mem_append.mp hd with hd | hd
      · obtain ⟨i, -, rfl⟩ := List.mem_map.mp hd
        exact (inRange_generated _ _ false).1
      · obtain ⟨i, -, rfl⟩ := List.mem_map.mp hd
        exact (inRange_generated _ _ _).2
    have hlen : ((List.range N).map fun i => generated0 (prg0 i) (b0 i)).length = N := by simp
    rw [and_iff_right hlen, and_iff_left hrange, List.forall₂_map_left_iff, List.forall₂_map_right_iff,
      List.forall₂_same]
    simp only [List.mem_range, correlated_generated_iff]
  · have hhangs : Hangs (generateDaBit 0 N b0 prg0) (generateDaBit 1 N b1 prg1) := (hangs_loopTo hN hN).bind _ _
    exact iff_of_false hhangs.not_exists fun h => hN h.1

/-- The mask zero, with both bits unset: the halves add up to `2 ^ 20 + 2`. -/
theorem not_generateMeets_zero :
    ¬ GenerateMeets 1 (fun _ => false) (fun _ => false) (fun _ => 0) (fun _ => 0) := by
  rintro ⟨out0, out1, hterm, -, hcorr, -⟩
  obtain ⟨rfl, rfl⟩ := (generateDaBit_reaches (by decide)).terminates.unique hterm
  rw [List.forall₂_map_left_iff, List.forall₂_map_right_iff, List.forall₂_same] at hcorr
  exact absurd (hcorr 0 (List.mem_range.mpr one_pos)) (by rw [DaBit.Correlated]; decide)

end PrioPlus
