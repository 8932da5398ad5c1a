import Mathlib.Algebra.Order.BigOperators.Group.List
import Mathlib.Data.Int.ModEq
import PrioPlus.Constants
import PrioPlus.Utils

/-!
# The guards of `int_sum`, `var_op` and `lin_reg`

Before it sends anything, the client compares `Int_Modulus` with the number of values times a power of two. The
product is one of 64 bits. Where it does not wrap the guard keeps every total below the modulus
(`mul_lt_of_product_le`), and the totals that the servers reduce are the true ones (`totalFits_iff`). A product that
wraps to a small number is accepted, and with values of at least two bits the largest total is then too large
(`intModulus_le_of_wrap`).
-/

namespace PrioPlus

/-- `error_exit`, after the lines that were printed. -/
structure ErrorExit where
  printed : List String
  msg : String
deriving DecidableEq

/-- The comparison with `Int_Modulus`, for values below `2 ^ bits`. -/
def modulusGuard (bits : UInt32) (numreqs : UInt64) : Except ErrorExit Unit :=
  if intModulus < (((1 : UInt64) <<< bits.toUInt64) * numreqs).toNat then
    .error { printed := ["Modulus should be at least " ++ toString (bits + log2 numreqs) ++ " bits"],
             msg := "Int Modulus too small" }
  else .ok ()

/-- The guard of `int_sum`. -/
def intSumGuard (numBits : UInt32) (numreqs : UInt64) : Except ErrorExit Unit := modulusGuard numBits numreqs

/-- The guard for squares, of `var_op` and `lin_reg`. -/
def squareGuard (numBits : UInt32) (numreqs : UInt64) : Except ErrorExit Unit :=
  if numBits > 31 then .error { printed := [], msg := "Num bits is too large. x^2 > 2^64." }
  else modulusGuard (2 * numBits) numreqs

/-- The guard of `var_op`. -/
def varOpGuard (numBits : UInt32) (numreqs : UInt64) : Except ErrorExit Unit := squareGuard numBits numreqs

/-- The guard of `lin_reg`. -/
def linRegGuard (numBits : UInt32) (numreqs : UInt64) : Except ErrorExit Unit := squareGuard numBits numreqs

/-! ### Totals -/

/-- `n` values of at most `most` have a total below the modulus, and any two numbers that add up to the total modulo
`Int_Modulus` give it when they are added and reduced. -/
def TotalFits (n most : ℕ) : Prop :=
  n * most < intModulus ∧
    ∀ vs : List ℕ, vs.length = n → (∀ v ∈ vs, v ≤ most) →
      ∀ a b : ℤ, a + b ≡ (vs.sum : ℕ) [ZMOD intModulus] → (b + a) % (intModulus : ℤ) = (vs.sum : ℕ)

theorem totalFits_iff {n most : ℕ} : TotalFits n most ↔ n * most < intModulus := by
  refine ⟨And.left, fun hlt => ⟨hlt, fun vs hlen hle a b hab => ?_⟩⟩
  have hsum : vs.sum ≤ n * most := by
    have h := List.sum_le_card_nsmul vs most hle
    rwa [hlen, smul_eq_mul] at h
  rw [add_comm b a, hab]
  exact Int.emod_eq_of_lt (by positivity) (by exact_mod_cast hsum.trans_lt hlt)

theorem toNat_guardProduct {bits : UInt32} (hbits : bits.toNat ≤ 63) (numreqs : UInt64) :
    (((1 : UInt64) <<< bits.toUInt64) * numreqs).toNat = 2 ^ bits.toNat * numreqs.toNat % 2 ^ 64 := by
  have hpow := toNat_one_shiftLeft (n := bits.toUInt64) (by rwa [UInt32.toNat_toUInt64])
  rw [UInt64.toNat_mul, hpow, UInt32.toNat_toUInt64]

theorem modulusGuard_eq_ok_iff {bits : UInt32} (hbits : bits.toNat ≤ 63) (numreqs : UInt64) :
    modulusGuard bits numreqs = .ok () ↔ 2 ^ bits.toNat * numreqs.toNat % 2 ^ 64 ≤ intModulus := by
  rw [modulusGuard, toNat_guardProduct hbits]
  split_ifs with h
  · exact iff_of_false (by simp) (not_le.mpr h)
  · exact iff_of_true rfl (not_lt.mp h)

/-! ### When the guard is right -/

/-- The product of the guard does not wrap, or what it wraps to is too large as well, or the values are single bits
and fewer than the modulus. -/
def GuardExact (numBits bits n : ℕ) : Prop :=
  2 ^ bits * n < 2 ^ 64 ∨ intModulus < 2 ^ bits * n % 2 ^ 64 ∨ numBits = 1 ∧ n < intModulus

instance (numBits bits n : ℕ) : Decidable (GuardExact numBits bits n) := inferInstanceAs (Decidable (_ ∨ _ ∨ _))

section Exact

variable {numBits bits n most : ℕ}

theorem mul_lt_of_product_le (hmost : most < 2 ^ bits) (h : 2 ^ bits * n ≤ intModulus) : n * most < intModulus := by
  rcases Nat.eq_zero_or_pos n with rfl | hpos
  · rw [zero_mul]
    decide
  · calc n * most < n * 2 ^ bits := Nat.mul_lt_mul_of_pos_left hmost hpos
      _ = 2 ^ bits * n := mul_comm _ _
      _ ≤ intModulus := h

theorem intModulus_le_of_wrap (hmost : 9 * 2 ^ bits ≤ 16 * most) (hwrap : 2 ^ 64 ≤ 2 ^ bits * n) :
    intModulus ≤ n * most := by
  have hscale : 9 * 2 ^ 64 ≤ 16 * (n * most) := calc
    9 * 2 ^ 64 ≤ 9 * (2 ^ bits * n) := Nat.mul_le_mul_left 9 hwrap
    _ = 9 * 2 ^ bits * n := (mul_assoc _ _ _).symm
    _ ≤ 16 * most * n := Nat.mul_le_mul_right n hmost
    _ = 16 * (n * most) := by rw [mul_assoc, mul_comm most n]
  have hmodulus : intModulus = 2 ^ 63 + 2 ^ 19 + 1 := by decide
  omega

theorem accepted_lt_iff (hmost : most < 2 ^ bits) (hn : n < 2 ^ 64) (hzero : numBits = 0 → bits = 0)
    (hone : numBits = 1 → most = 1) (hlarge : 2 ≤ numBits → 9 * 2 ^ bits ≤ 16 * most) :
    (2 ^ bits * n % 2 ^ 64 ≤ intModulus → n * most < intModulus) ↔ GuardExact numBits bits n := by
  have hfits : 2 ^ bits * n < 2 ^ 64 → 2 ^ bits * n % 2 ^ 64 = 2 ^ bits * n := Nat.mod_eq_of_lt
  constructor
  · intro h
    by_cases hwrap : 2 ^ bits * n < 2 ^ 64
    · exact Or.inl hwrap
    by_cases haccept : 2 ^ bits * n % 2 ^ 64 ≤ intModulus
    · have hlt := h haccept
      obtain h0 | h1 | h2 : numBits = 0 ∨ numBits = 1 ∨ 2 ≤ numBits := by omega
      · rw [hzero h0, pow_zero, one_mul] at hwrap
        exact absurd hn hwrap
      · rw [hone h1, mul_one] at hlt
        exact Or.inr (Or.inr ⟨h1, hlt⟩)
      · exact absurd hlt (not_lt.mpr (intModulus_le_of_wrap (hlarge h2) (not_lt.mp hwrap)))
    · exact Or.inr (Or.inl (not_le.mp haccept))
  · rintro (hwrap | hreject | ⟨h1, hlt⟩) haccept
    · rw [hfits hwrap] at haccept
      exact mul_lt_of_product_le hmost haccept
    · exact absurd haccept (not_le.mpr hreject)
    · rwa [hone h1, mul_one]

end Exact

/-! ### The three operations -/

theorem nine_le_square {q : ℕ} (hq : 4 ≤ q) : 9 * q ^ 2 ≤ 16 * (q - 1) ^ 2 := by
  obtain ⟨r, rfl⟩ : ∃ r, q = r + 4 := ⟨q - 4, by omega⟩
  have hsub : r + 4 - 1 = r + 3 := rfl
  rw [hsub]
  nlinarith

theorem four_le_two_pow {k : ℕ} (hk : 2 ≤ k) : 4 ≤ 2 ^ k := Nat.pow_le_pow_right Nat.two_pos hk

theorem intSumGuard_iff {numBits : UInt32} (hbits : numBits.toNat ≤ 63) (numreqs : UInt64) :
    (intSumGuard numBits numreqs = .ok () → TotalFits numreqs.toNat (2 ^ numBits.toNat - 1)) ↔
      GuardExact numBits.toNat numBits.toNat numreqs.toNat := by
  have hpow := Nat.one_le_two_pow (n := numBits.toNat)
  rw [intSumGuard, modulusGuard_eq_ok_iff hbits, totalFits_iff]
  refine accepted_lt_iff (by omega) numreqs.toNat_lt id (fun h => by rw [h]; rfl) (fun h => ?_)
  have := four_le_two_pow h
  omega

theorem squareGuard_iff {numBits : UInt32} (numreqs : UInt64) :
    (squareGuard numBits numreqs = .ok () → TotalFits numreqs.toNat ((2 ^ numBits.toNat - 1) ^ 2)) ↔
      31 < numBits.toNat ∨ GuardExact numBits.toNat (2 * numBits.toNat) numreqs.toNat := by
  rw [squareGuard]
  by_cases h31 : numBits > 31
  · rw [if_pos h31]
    exact iff_of_true (fun h => by simp at h) (Or.inl h31)
  rw [if_neg h31]
  have hle : numBits.toNat ≤ 31 := not_lt.mp h31
  have hdouble : (2 * numBits).toNat = 2 * numBits.toNat := by
    rw [UInt32.toNat_mul]
    exact Nat.mod_eq_of_lt (by change 2 * numBits.toNat < 2 ^ 32; omega)
  have hpow := Nat.one_le_two_pow (n := numBits.toNat)
  have hsquare : 2 ^ (2 * numBits.toNat) = (2 ^ numBits.toNat) ^ 2 := by rw [← pow_mul, mul_comm]
  rw [modulusGuard_eq_ok_iff (by omega), totalFits_iff, hdouble]
  refine Iff.trans (accepted_lt_iff ?_ numreqs.toNat_lt (fun h => by rw [h]) (fun h => by rw [h]; rfl) ?_)
    (or_iff_right (by omega)).symm
  · rw [hsquare]
    exact Nat.pow_lt_pow_left (by omega) (by decide)
  · intro h
    rw [hsquare]
    exact nine_le_square (four_le_two_pow h)

/-- The guards of the three operations rule out a total of the modulus or more exactly when the product that they
compare does not wrap, or wraps to a number that they reject, or the values are single bits. -/
theorem guards_exact {numBits : UInt32} (hbits : numBits.toNat ≤ 63) (numreqs : UInt64) :
    ((intSumGuard numBits numreqs = .ok () → TotalFits numreqs.toNat (2 ^ numBits.toNat - 1)) ↔
        GuardExact numBits.toNat numBits.toNat numreqs.toNat) ∧
      ((varOpGuard numBits numreqs = .ok () → TotalFits numreqs.toNat ((2 ^ numBits.toNat - 1) ^ 2)) ↔
        31 < numBits.toNat ∨ GuardExact numBits.toNat (2 * numBits.toNat) numreqs.toNat) ∧
      ((linRegGuard numBits numreqs = .ok () → TotalFits numreqs.toNat ((2 ^ numBits.toNat - 1) ^ 2)) ↔
        31 < numBits.toNat ∨ GuardExact numBits.toNat (2 * numBits.toNat) numreqs.toNat) :=
  ⟨intSumGuard_iff hbits numreqs, squareGuard_iff numreqs, squareGuard_iff numreqs⟩

theorem guards_exact_63_2 : ¬ TotalFits (2 : UInt64).toNat (2 ^ (63 : UInt32).toNat - 1) := by
  intro h
  have hexact := (guards_exact (show (63 : UInt32).toNat ≤ 63 by decide) 2).1.mp fun _ => h
  revert hexact
  decide

/-- Two values of 63 bits, and four values of 31 bits that are squared, pass the guards. -/
theorem guards_accept_wrapped :
    (intSumGuard 63 2 = .ok () ∧ ¬ TotalFits 2 (2 ^ 63 - 1)) ∧
      (varOpGuard 31 4 = .ok () ∧ linRegGuard 31 4 = .ok () ∧ ¬ TotalFits 4 ((2 ^ 31 - 1) ^ 2)) := by
  refine ⟨⟨by decide, ?_⟩, by decide, by decide, ?_⟩
  · rw [totalFits_iff]
    decide
  · rw [totalFits_iff]
    decide

end PrioPlus
