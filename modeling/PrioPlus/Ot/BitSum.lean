import PrioPlus.Ot.IntSum
import PrioPlus.Server.Net

/-!
# `bitsum_ot` at any modulus

`bitsum_ot_sender` offers `b0` and `b0 + 1 - 2 * share`. Unlike `intsum_ot` it does not reduce the second offer, so with
the mask zero and both bits set the chosen word is `2 ^ 64 - 1` and not `mod - 1`; and with a large modulus the running
sums of both sides can pass `2 ^ 64`. The sums are right when `mod` divides `2 ^ 64` and when no running sum leaves the
words at either end (`bitsumMeets_of_fits`). Otherwise each such event shifts the result by a word, and it is right
exactly when these shifts cancel modulo `mod` (`bitsumMeets_iff`).
-/

namespace PrioPlus

open Finset Lib.TwoParty Lib.WordSum

/-- `bitsum_ot_sender` with its transfer. -/
def bitsumOtSend (mod : UInt64) (prg : ℕ → UInt64) (n : ℕ) (shares valid : Vector Bool n) : Server UInt64 := do
  loopTo n
  let sent := bitsumOtSender mod prg n shares.toList valid.toList
  sendMsg (.ot sent.1)
  return sent.2

/-- `bitsum_ot_receiver` with its transfer. -/
def bitsumOtRecv (mod : UInt64) (n : ℕ) (shares : Vector Bool n) : Server UInt64 := do
  let r ← otRecv shares.toList
  loopTo n
  return bitsumOtReceiver mod r

/-- What a sum modulo `mod` is congruent by. -/
def sumModulus (mod : UInt64) : ℕ := if mod = 0 then 2 ^ 64 else mod.toNat

section Slots

variable {n : ℕ} (shares0 shares1 valid : Vector Bool n)

/-- The number of valid slots whose bits differ. -/
def validXors : ℕ :=
  ∑ i ∈ range n, if valid.toList.getD i false then
    (shares0.toList.getD i false ^^ shares1.toList.getD i false).toNat else 0

/-- Both sides return, with sums that add up to the number of valid slots whose bits differ. -/
def BitsumMeets (mod : UInt64) (prg : ℕ → UInt64) : Prop :=
  ∃ sum0 sum1, Terminates (bitsumOtSend mod prg n shares0 valid) (bitsumOtRecv mod n shares1) sum0 sum1 ∧
    sum0.toNat + sum1.toNat ≡ validXors shares0 shares1 valid [MOD sumModulus mod]

variable (mod : UInt64) (prg : ℕ → UInt64)

/-- The mask of a slot. -/
def bitsumMask (i : ℕ) : ℕ := (prg i).toNat % mod.toNat

/-- What the sender adds for a slot. -/
def bitsumSent (i : ℕ) : ℕ :=
  if valid.toList.getD i false then mod.toNat - bitsumMask mod prg i + (shares0.toList.getD i false).toNat else 0

/-- The offer below zero is chosen. -/
def bitsumUnder (i : ℕ) : Bool :=
  valid.toList.getD i false && shares0.toList.getD i false && shares1.toList.getD i false && bitsumMask mod prg i = 0

/-- What the receiver adds for a slot. -/
def bitsumChosen (i : ℕ) : ℕ :=
  if valid.toList.getD i false then
    if shares1.toList.getD i false then
      if shares0.toList.getD i false then
        if bitsumMask mod prg i = 0 then 2 ^ 64 - 1 else bitsumMask mod prg i - 1
      else bitsumMask mod prg i + 1
    else bitsumMask mod prg i
  else 0

/-- How often the two running sums passed `2 ^ 64`. -/
def bitsumWraps : ℕ :=
  wraps (2 ^ 64) mod.toNat (bitsumSent shares0 valid mod prg) n +
    wraps (2 ^ 64) mod.toNat (bitsumChosen shares0 shares1 valid mod prg) n

/-- How many of the chosen offers are below zero. -/
def bitsumUnders : ℕ := ∑ i ∈ range n, (bitsumUnder shares0 shares1 valid mod prg i).toNat

/-- The number that the chosen offer stands for, `-1` for the offer below zero. -/
def bitsumOffer (i : ℕ) : ℤ :=
  if valid.toList.getD i false then
    bitsumMask mod prg i +
      if shares1.toList.getD i false then 1 - 2 * ((shares0.toList.getD i false).toNat : ℤ) else 0
  else 0

/-- No running sum leaves the words: with the terms before it reduced, each term has room, above and for the receiver
also below. -/
structure BitsumNoWrap : Prop where
  sent : ∀ k < n, (∑ i ∈ range k, bitsumSent shares0 valid mod prg i) % mod.toNat +
    bitsumSent shares0 valid mod prg k < 2 ^ 64
  chosen : ∀ k < n, 0 ≤ (∑ i ∈ range k, bitsumOffer shares0 shares1 valid mod prg i) % (mod.toNat : ℤ) +
      bitsumOffer shares0 shares1 valid mod prg k ∧
    (∑ i ∈ range k, bitsumOffer shares0 shares1 valid mod prg i) % (mod.toNat : ℤ) +
      bitsumOffer shares0 shares1 valid mod prg k < (2 ^ 64 : ℕ)

/-! ### The two sums -/

theorem bitsumOt_reaches (hn : n < 2 ^ 32) :
    Reaches (.start (bitsumOtSend mod prg n shares0 valid) (bitsumOtRecv mod n shares1))
      (.done (bitsumOtSender mod prg n shares0.toList valid.toList).2
        (bitsumOtReceiver mod (List.zipWith otChoose (bitsumOtSender mod prg n shares0.toList valid.toList).1
          shares1.toList))) := by
  rw [bitsumOtSend, bitsumOtRecv, loopTo_of_lt hn, Proc.ret_bind]
  exact Reaches.bind (reaches_ot01 _ _ (by simp)) (Reaches.refl _)

theorem bitsumOt_hangs (hn : ¬ n < 2 ^ 32) :
    Hangs (bitsumOtSend mod prg n shares0 valid) (bitsumOtRecv mod n shares1) := by
  rw [bitsumOtSend, loopTo_of_not_lt hn]
  exact hangs_recv _

theorem bitsumChosen_modEq (i : ℕ) : (bitsumChosen shares0 shares1 valid mod prg i : ℤ) ≡
    bitsumOffer shares0 shares1 valid mod prg i [ZMOD (2 ^ 64 : ℕ)] := by
  unfold bitsumChosen bitsumOffer
  generalize valid.toList.getD i false = v, shares1.toList.getD i false = b, shares0.toList.getD i false = a,
    bitsumMask mod prg i = mask
  have hcast : ((2 ^ 64 - 1 : ℕ) : ℤ) ≡ -1 [ZMOD (2 ^ 64 : ℕ)] := by decide
  cases v with
  | false => rfl
  | true =>
    cases b with
    | false => simp
    | true =>
      cases a with
      | false => simp
      | true =>
        rcases mask with _ | mask
        · exact hcast
        · simp

section Modulus

variable {mod} (hmod : mod ≠ 0)
include hmod

theorem toNat_pos : 0 < mod.toNat := Nat.pos_of_ne_zero fun h => hmod (UInt64.toNat_inj.mp h)

theorem bitsumMask_lt (i : ℕ) : bitsumMask mod prg i < mod.toNat := Nat.mod_lt _ (toNat_pos hmod)

theorem toNat_bitsumSum0 (k : ℕ) : (bitsumOtSender mod prg k shares0.toList valid.toList).2.toNat =
    acc (2 ^ 64) mod.toNat (bitsumSent shares0 valid mod prg) k := by
  have hlt := mod.toNat_lt
  unfold bitsumOtSender
  dsimp only
  induction k with
  | zero => rfl
  | succ k ih =>
    rw [List.range_succ, List.foldl_append, List.foldl_cons, List.foldl_nil, acc, bitsumSent]
    cases valid.toList.getD k false with
    | false =>
      have hacc := acc_lt (B := 2 ^ 64) (a := bitsumSent shares0 valid mod prg) (toNat_pos hmod) k
      simp only [Bool.false_eq_true, if_false]
      rw [ih, Nat.add_zero, Nat.mod_eq_of_lt (hacc.trans hlt), Nat.mod_eq_of_lt hacc]
    | true =>
      have hmask := bitsumMask_lt prg hmod k
      have hmax : (otMax mod).toNat = mod.toNat - 1 := by
        have hone : (1 : UInt64) ≤ mod := UInt64.le_iff_toNat_le.mpr (toNat_pos hmod)
        rw [otMax, if_neg hmod, UInt64.toNat_sub_of_le _ _ hone]
        rfl
      have hb0 : (reduceMod mod (prg k)).toNat = bitsumMask mod prg k := toNat_reduceMod_of_ne hmod _
      have hminus : (otMax mod - reduceMod mod (prg k) + 1).toNat = mod.toNat - bitsumMask mod prg k := by
        have hle : reduceMod mod (prg k) ≤ otMax mod := by
          rw [UInt64.le_iff_toNat_le, hb0, hmax]
          omega
        rw [UInt64.toNat_add, UInt64.toNat_sub_of_le _ _ hle, hb0, hmax, UInt64.toNat_one, Nat.mod_eq_of_lt (by omega)]
        omega
      have hbit : (shares0.toList.getD k false).toUInt64.toNat = (shares0.toList.getD k false).toNat := by
        cases shares0.toList.getD k false <;> rfl
      have hpair : (bitsumPair mod (prg k) (shares0.toList.getD k false) true).1 = reduceMod mod (prg k) := rfl
      rw [if_pos rfl, if_pos rfl, toNat_reduceMod_of_ne hmod, UInt64.toNat_add, UInt64.toNat_add, hpair, hminus, hbit,
        ih, Nat.add_mod_mod]

theorem toNat_otChoose_bitsumPair (i : ℕ) :
    (otChoose (bitsumPair mod (prg i) (shares0.toList.getD i false) (valid.toList.getD i false))
      (shares1.toList.getD i false)).toNat = bitsumChosen shares0 shares1 valid mod prg i := by
  have hmask := bitsumMask_lt prg hmod i
  have hlt := mod.toNat_lt
  have hb0 : (reduceMod mod (prg i)).toNat = bitsumMask mod prg i := toNat_reduceMod_of_ne hmod _
  have hfalse : false.toUInt64 = 0 := rfl
  have htrue : true.toUInt64 = 1 := rfl
  unfold bitsumChosen
  cases valid.toList.getD i false with
  | false => cases shares1.toList.getD i false <;> rfl
  | true =>
    cases shares1.toList.getD i false with
    | false => exact hb0
    | true =>
      cases shares0.toList.getD i false with
      | false =>
        simp only [otChoose, bitsumPair, if_true, Bool.false_eq_true, if_false, hfalse, UInt64.mul_zero,
          UInt64.sub_zero]
        rw [UInt64.toNat_add, hb0, UInt64.toNat_one, Nat.mod_eq_of_lt (by omega)]
      | true =>
        simp only [otChoose, bitsumPair, if_true, htrue, UInt64.mul_one]
        rw [UInt64.toNat_sub, UInt64.toNat_add, hb0]
        split_ifs with hzero
        · rw [hzero]
          rfl
        · simp
          omega

theorem toNat_bitsumSum1 :
    (bitsumOtReceiver mod (List.zipWith otChoose (bitsumOtSender mod prg n shares0.toList valid.toList).1
      shares1.toList)).toNat = acc (2 ^ 64) mod.toNat (bitsumChosen shares0 shares1 valid mod prg) n := by
  rw [bitsumOtSender, zipWith_otChoose_range _ (by simp), bitsumOtReceiver, List.foldl_map,
    toNat_foldl_reduceMod_of_ne hmod]
  exact acc_congr fun i _ => toNat_otChoose_bitsumPair shares0 shares1 valid prg hmod i

theorem bitsumSent_add_bitsumOffer (i : ℕ) :
    (bitsumSent shares0 valid mod prg i : ℤ) + bitsumOffer shares0 shares1 valid mod prg i ≡
      ((if valid.toList.getD i false then
        (shares0.toList.getD i false ^^ shares1.toList.getD i false).toNat else 0 : ℕ) : ℤ) [ZMOD mod.toNat] := by
  have hmask := bitsumMask_lt prg hmod i
  apply Int.ModEq.symm
  rw [Int.modEq_iff_dvd]
  unfold bitsumSent bitsumOffer
  cases valid.toList.getD i false with
  | false => simp
  | true =>
    refine ⟨1, ?_⟩
    cases shares0.toList.getD i false <;> cases shares1.toList.getD i false <;> simp <;> omega

/-- Over the integers the mask cancels and leaves the xor; an offer below zero is too large by a word. -/
theorem bitsumSent_add_bitsumChosen (i : ℕ) :
    bitsumSent shares0 valid mod prg i + bitsumChosen shares0 shares1 valid mod prg i ≡
      (if valid.toList.getD i false then
        (shares0.toList.getD i false ^^ shares1.toList.getD i false).toNat else 0) +
      2 ^ 64 * (bitsumUnder shares0 shares1 valid mod prg i).toNat [MOD mod.toNat] := by
  have hmask := bitsumMask_lt prg hmod i
  have hmultiple : ∃ c, bitsumSent shares0 valid mod prg i + bitsumChosen shares0 shares1 valid mod prg i =
      (if valid.toList.getD i false then
        (shares0.toList.getD i false ^^ shares1.toList.getD i false).toNat else 0) +
      2 ^ 64 * (bitsumUnder shares0 shares1 valid mod prg i).toNat + mod.toNat * c := by
    unfold bitsumSent bitsumChosen bitsumUnder
    cases valid.toList.getD i false with
    | false => exact ⟨0, by simp⟩
    | true =>
      refine ⟨1, ?_⟩
      cases shares0.toList.getD i false <;> cases shares1.toList.getD i false <;>
        by_cases hzero : bitsumMask mod prg i = 0 <;> simp [hzero] <;> omega
  obtain ⟨c, hc⟩ := hmultiple
  rw [hc]
  exact Nat.add_mul_mod_self_left _ _ _

/-- The two sums and a word for each sum that passed `2 ^ 64` make up the number of differing slots and a word for each
offer below zero. -/
theorem bitsum_add_wraps :
    (bitsumOtSender mod prg n shares0.toList valid.toList).2.toNat +
        (bitsumOtReceiver mod (List.zipWith otChoose (bitsumOtSender mod prg n shares0.toList valid.toList).1
          shares1.toList)).toNat + 2 ^ 64 * bitsumWraps shares0 shares1 valid mod prg ≡
      validXors shares0 shares1 valid + 2 ^ 64 * bitsumUnders shares0 shares1 valid mod prg [MOD mod.toNat] := by
  have hlt := mod.toNat_lt
  have hp := toNat_pos hmod
  have hsent : ∀ k < n, bitsumSent shares0 valid mod prg k + mod.toNat ≤ 2 * 2 ^ 64 := by
    intro k _
    have := Bool.toNat_le (shares0.toList.getD k false)
    unfold bitsumSent
    split_ifs <;> omega
  have hchosen : ∀ k < n, bitsumChosen shares0 shares1 valid mod prg k + mod.toNat ≤ 2 * 2 ^ 64 := by
    intro k _
    have := bitsumMask_lt prg hmod k
    unfold bitsumChosen
    split_ifs <;> omega
  have hterms : ∑ i ∈ range n, bitsumSent shares0 valid mod prg i +
      ∑ i ∈ range n, bitsumChosen shares0 shares1 valid mod prg i ≡
        validXors shares0 shares1 valid + 2 ^ 64 * bitsumUnders shares0 shares1 valid mod prg [MOD mod.toNat] := by
    rw [validXors, bitsumUnders, mul_sum, ← sum_add_distrib, ← sum_add_distrib]
    exact Nat.ModEq.sum fun i _ => bitsumSent_add_bitsumChosen shares0 shares1 valid prg hmod i
  have htotal := ((acc_add_wraps hp hsent).add (acc_add_wraps hp hchosen)).trans hterms
  rw [toNat_bitsumSum0 shares0 valid prg hmod, toNat_bitsumSum1 shares0 shares1 valid prg hmod, bitsumWraps,
    Nat.mul_add, ← add_assoc, add_right_comm _ (acc _ _ (bitsumChosen shares0 shares1 valid mod prg) n), add_assoc]
  exact htotal

end Modulus

/-- The sums are right exactly when the loops end and the words that the sums lose and the offers gain cancel. -/
theorem bitsumMeets_iff : BitsumMeets shares0 shares1 valid mod prg ↔
    n < 2 ^ 32 ∧ (mod = 0 ∨ 2 ^ 64 * bitsumWraps shares0 shares1 valid mod prg ≡
      2 ^ 64 * bitsumUnders shares0 shares1 valid mod prg [MOD mod.toNat]) := by
  by_cases hn : n < 2 ^ 32
  · rw [BitsumMeets, (bitsumOt_reaches shares0 shares1 valid mod prg hn).terminates.exists_iff, and_iff_right hn,
      sumModulus]
    by_cases hmod : mod = 0
    · subst hmod
      have hwords := bitsumOtSender_add_bitsumOtReceiver prg n shares0.toList valid.toList shares1.toList (by simp)
      have hnat := congrArg UInt64.toNat hwords
      rw [UInt64.toNat_add, UInt64.toNat_ofNat'] at hnat
      rw [if_pos rfl, eq_self, true_or, iff_true]
      exact hnat
    · rw [if_neg hmod, or_iff_right hmod]
      have htotal := bitsum_add_wraps shares0 shares1 valid prg hmod
      constructor
      · intro hright
        exact Nat.ModEq.add_left_cancel hright htotal
      · intro hcancel
        exact Nat.ModEq.add_right_cancel hcancel htotal
  · exact iff_of_false (bitsumOt_hangs shares0 shares1 valid mod prg hn).not_exists fun h => hn h.1

variable {mod}

theorem bitsumMeets_of_cancel (hn : n < 2 ^ 32) (hmod : mod ≠ 0)
    (hcancel : 2 ^ 64 * bitsumWraps shares0 shares1 valid mod prg ≡
      2 ^ 64 * bitsumUnders shares0 shares1 valid mod prg [MOD mod.toNat]) :
    BitsumMeets shares0 shares1 valid mod prg := by
  refine (bitsumOt_reaches shares0 shares1 valid mod prg hn).terminates.exists_iff.mpr ?_
  rw [sumModulus, if_neg hmod]
  exact Nat.ModEq.add_right_cancel hcancel (bitsum_add_wraps shares0 shares1 valid prg hmod)

theorem bitsumMeets_of_dvd (hn : n < 2 ^ 32) (hdvd : mod.toNat ∣ 2 ^ 64) :
    BitsumMeets shares0 shares1 valid mod prg := by
  have hmod : mod ≠ 0 := by
    rintro rfl
    exact absurd (Nat.eq_zero_of_zero_dvd hdvd) (by decide)
  apply bitsumMeets_of_cancel shares0 shares1 valid prg hn hmod
  have hlost (k : ℕ) : 2 ^ 64 * k ≡ 0 [MOD mod.toNat] := Nat.modEq_zero_iff_dvd.mpr (hdvd.mul_right k)
  exact (hlost _).trans (hlost _).symm

theorem bitsumMeets_of_noWrap (hn : n < 2 ^ 32) (hmod : mod ≠ 0)
    (hfits : BitsumNoWrap shares0 shares1 valid mod prg) : BitsumMeets shares0 shares1 valid mod prg := by
  refine (bitsumOt_reaches shares0 shares1 valid mod prg hn).terminates.exists_iff.mpr ?_
  rw [sumModulus, if_neg hmod, toNat_bitsumSum0 shares0 valid prg hmod, toNat_bitsumSum1 shares0 shares1 valid prg hmod,
    ← Int.natCast_modEq_iff]
  have hsent : (acc (2 ^ 64) mod.toNat (bitsumSent shares0 valid mod prg) n : ℤ) =
      (∑ i ∈ range n, (bitsumSent shares0 valid mod prg i : ℤ)) % mod.toNat :=
    acc_eq_emod (fun _ _ => Int.ModEq.refl _) fun k hk => by
      have hroom := hfits.sent k hk
      have hmax := mod.toNat_lt
      rw [← Nat.cast_sum, ← Int.natCast_emod]
      constructor <;> omega
  have hchosen : (acc (2 ^ 64) mod.toNat (bitsumChosen shares0 shares1 valid mod prg) n : ℤ) =
      (∑ i ∈ range n, bitsumOffer shares0 shares1 valid mod prg i) % mod.toNat :=
    acc_eq_emod (fun i _ => bitsumChosen_modEq shares0 shares1 valid mod prg i) hfits.chosen
  have hterms : ∑ i ∈ range n, (bitsumSent shares0 valid mod prg i : ℤ) +
      ∑ i ∈ range n, bitsumOffer shares0 shares1 valid mod prg i ≡ validXors shares0 shares1 valid [ZMOD mod.toNat] := by
    rw [validXors, Nat.cast_sum, ← sum_add_distrib]
    exact Int.ModEq.sum fun i _ => bitsumSent_add_bitsumOffer shares0 shares1 valid prg hmod i
  rw [Nat.cast_add, hsent, hchosen]
  exact ((Int.mod_modEq _ _).add (Int.mod_modEq _ _)).trans hterms

/-- Below `2 ^ 63` only the offers below zero matter. -/
theorem bitsumNoWrap_of_lt (hmod : mod ≠ 0) (hlt : mod.toNat < 2 ^ 63)
    (hunder : ∀ i, i < n → bitsumUnder shares0 shares1 valid mod prg i = false) :
    BitsumNoWrap shares0 shares1 valid mod prg where
  sent k _ := by
    have hsum := Nat.mod_lt (∑ i ∈ range k, bitsumSent shares0 valid mod prg i) (toNat_pos hmod)
    have hbit := Bool.toNat_le (shares0.toList.getD k false)
    rw [bitsumSent]
    split_ifs <;> omega
  chosen k hk := by
    have hp : (0 : ℤ) < mod.toNat := Int.natCast_pos.mpr (toNat_pos hmod)
    have hsum := Int.emod_lt_of_pos (∑ i ∈ range k, bitsumOffer shares0 shares1 valid mod prg i) hp
    have hnonneg := Int.emod_nonneg (∑ i ∈ range k, bitsumOffer shares0 shares1 valid mod prg i) hp.ne'
    have hmask := bitsumMask_lt prg hmod k
    have hoffer : 0 ≤ bitsumOffer shares0 shares1 valid mod prg k ∧
        bitsumOffer shares0 shares1 valid mod prg k ≤ mod.toNat := by
      have hno := hunder k hk
      unfold bitsumUnder at hno
      unfold bitsumOffer
      generalize valid.toList.getD k false = v, shares0.toList.getD k false = a,
        shares1.toList.getD k false = b at hno ⊢
      cases v <;> cases a <;> cases b <;> simp at hno ⊢ <;> omega
    constructor <;> omega

/-- The loops end, and the modulus divides the words or no running sum leaves them. -/
theorem bitsumMeets_of_fits (hn : n < 2 ^ 32)
    (hmod : mod = 0 ∨ mod.toNat ∣ 2 ^ 64 ∨ BitsumNoWrap shares0 shares1 valid mod prg) :
    BitsumMeets shares0 shares1 valid mod prg := by
  by_cases hzero : mod = 0
  · exact (bitsumMeets_iff shares0 shares1 valid mod prg).mpr ⟨hn, Or.inl hzero⟩
  · rcases hmod with h | hdvd | hfits
    · exact absurd h hzero
    · exact bitsumMeets_of_dvd shares0 shares1 valid prg hn hdvd
    · exact bitsumMeets_of_noWrap shares0 shares1 valid prg hn hzero hfits

end Slots

/-- Modulo 100 with the masks 5 and 0: the receiver adds 5, then takes 1 off for the offer below zero. -/
theorem bitsumMeets_of_fits_hundred :
    BitsumMeets #v[true, true] #v[false, true] #v[true, true] 100 (fun i => if i = 0 then 5 else 0) :=
  bitsumMeets_of_fits _ _ _ _ (by decide) (Or.inr (Or.inr ⟨by decide, by decide⟩))

/-- Modulo 100, the mask zero and both bits set: the sums are 1 and 15. -/
theorem not_bitsumMeets_hundred : ¬ BitsumMeets #v[true] #v[true] #v[true] 100 (fun _ => 0) := by
  rintro ⟨sum0, sum1, hterm, hsum⟩
  obtain ⟨rfl, rfl⟩ :=
    (bitsumOt_reaches #v[true] #v[true] #v[true] 100 (fun _ => 0) (by decide)).terminates.unique hterm
  exact absurd hsum (by decide)

end PrioPlus
