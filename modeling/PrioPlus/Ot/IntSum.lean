import PrioPlus.Constants
import PrioPlus.Lib.WordSum
import PrioPlus.Ot

/-!
# `intsum_ot` at the modulus of the servers

The sender and the receiver handle each bit of each value in turn, with one running index over all of them. With
`mod = Int_Modulus`, which is above `2 ^ 63`, the sums that are formed before each reduction can pass `2 ^ 64`. The
two results then miss the value by `2 ^ 64` for each sum that did (`intsum_value_add_wraps`), and as there are too
few of these to add up to a multiple of the modulus, the results are right exactly when none did
(`intsum_value_iff`).
-/

namespace PrioPlus

open Finset Lib.FlatLoop Lib.WordSum

/-- `num` after `k` rounds of `num = num >> 1`. -/
def shiftBits (num : UInt64) : ℕ → UInt64
  | 0 => num
  | k + 1 => shiftBits num k >>> 1

/-- `num % 2` in round `k`. -/
def boolShare (num : UInt64) (k : ℕ) : UInt64 := shiftBits num k % 2

/-- `1ULL << k`. -/
def powTwo (k : ℕ) : UInt64 := 1 <<< UInt64.ofNat k

/-- `b0[idx]` and `b1[idx]` of `intsum_ot_sender`. -/
def intsumPair (mod word share : UInt64) (k : ℕ) : UInt64 × UInt64 :=
  let minusPow := otMax mod - powTwo k + 1
  let b0 := reduceMod mod word
  (b0, reduceMod mod (b0 + if share = 0 then powTwo k else minusPow))

/-- What `intsum_ot_sender` adds to `ret[i][j]` in round `k`. -/
def intsumTerm (mod word share : UInt64) (k : ℕ) : UInt64 :=
  let minusB0 := otMax mod - reduceMod mod word + 1
  share * powTwo k + minusB0

/-- The value of the counter `idx` at bit `k` of value `j` of share `i`. -/
def bitIdx (numValues : ℕ) (numBits : ℕ → ℕ) (i j k : ℕ) : ℕ :=
  i * offset numBits numValues + offset numBits j + k

/-- A flat array filled by the three nested loops over shares, values and bits. -/
def flatBits {α : Type} (numShares numValues : ℕ) (numBits : ℕ → ℕ) (entry : ℕ → ℕ → ℕ → α) : List α :=
  (List.range numShares).flatMap fun i => (List.range numValues).flatMap fun j =>
    (List.range (numBits j)).map (entry i j)

/-- `intsum_ot_sender`: the offered pairs and the returned matrix. -/
def intsumOtSender (mod : UInt64) (prg : ℕ → UInt64) (shares : ℕ → ℕ → UInt64) (valid : ℕ → Bool)
    (numBits : ℕ → ℕ) (numShares numValues : ℕ) : List (UInt64 × UInt64) × (ℕ → ℕ → UInt64) :=
  let word := fun i j k => prg (bitIdx numValues numBits i j k)
  let pairs := flatBits numShares numValues numBits fun i j k =>
    if valid i then intsumPair mod (word i j k) (boolShare (shares i j) k) k else (0, 0)
  let ret := fun i j =>
    if valid i then
      (List.range (numBits j)).foldl (fun ret k =>
        reduceMod mod (ret + intsumTerm mod (word i j k) (boolShare (shares i j) k) k)) 0
    else 0
  (pairs, ret)

/-- The choice bits of `intsum_ot_receiver`. -/
def intsumChoices (shares : ℕ → ℕ → UInt64) (numBits : ℕ → ℕ) (numShares numValues : ℕ) : List Bool :=
  flatBits numShares numValues numBits fun i j k => boolShare (shares i j) k = 1

/-- `intsum_ot_receiver`, on the words that the transfer returned. -/
def intsumOtReceiver (mod : UInt64) (r : List UInt64) (numBits : ℕ → ℕ) (numValues : ℕ) (i j : ℕ) : UInt64 :=
  (List.range (numBits j)).foldl (fun ret k =>
    reduceMod mod (ret + r.getD (bitIdx numValues numBits i j k) 0)) 0

/-! ### The running index -/

section Flat

variable {α : Type} (numShares numValues : ℕ) (numBits : ℕ → ℕ) (entry : ℕ → ℕ → ℕ → α)

theorem length_row (i : ℕ) :
    ((List.range numValues).flatMap fun j => (List.range (numBits j)).map (entry i j)).length =
      offset numBits numValues := by
  rw [length_flatMap_range]
  simp

theorem length_flatBits : (flatBits numShares numValues numBits entry).length =
    numShares * offset numBits numValues := by
  rw [flatBits, length_flatMap_range]
  simp only [length_row]
  exact offset_const _ _

theorem getElem?_flatBits {i j k : ℕ} (hi : i < numShares) (hj : j < numValues) (hk : k < numBits j) :
    (flatBits numShares numValues numBits entry)[bitIdx numValues numBits i j k]? = some (entry i j k) := by
  have hrow := offset_mono numBits (Nat.succ_le_of_lt hj)
  rw [offset_succ] at hrow
  have houter := getElem?_flatMap_range
    (fun i => (List.range numValues).flatMap fun j => (List.range (numBits j)).map (entry i j)) hi
    (k := offset numBits j + k) (by rw [length_row]; omega)
  simp only [length_row, offset_const] at houter
  rw [bitIdx, flatBits, Nat.add_assoc, houter]
  exact getElem?_flatMap_map_range (entry i) numBits hj hk

end Flat

theorem getD_zipWith_flatBits {numShares numValues : ℕ} {numBits : ℕ → ℕ} (pair : ℕ → ℕ → ℕ → UInt64 × UInt64)
    (choice : ℕ → ℕ → ℕ → Bool) {i j k : ℕ} (hi : i < numShares) (hj : j < numValues) (hk : k < numBits j) :
    (List.zipWith otChoose (flatBits numShares numValues numBits pair)
      (flatBits numShares numValues numBits choice)).getD (bitIdx numValues numBits i j k) 0 =
      otChoose (pair i j k) (choice i j k) := by
  rw [List.getD_eq_getElem?_getD, List.getElem?_zipWith, getElem?_flatBits _ _ _ _ hi hj hk,
    getElem?_flatBits _ _ _ _ hi hj hk]
  rfl

/-! ### Words as numbers -/

/-- `fmpz_get_ui(Int_Modulus)`. -/
def modWord : UInt64 := UInt64.ofNat intModulus

theorem toNat_modWord : modWord.toNat = intModulus := rfl

theorem two_pow_lt_intModulus : 2 ^ 63 < intModulus ∧ intModulus + 2 ^ 62 < 2 ^ 64 := by decide

theorem toNat_reduceMod_of_ne {mod : UInt64} (hmod : mod ≠ 0) (x : UInt64) :
    (reduceMod mod x).toNat = x.toNat % mod.toNat := by
  rw [reduceMod, if_neg hmod, UInt64.toNat_mod]

theorem toNat_reduceMod (x : UInt64) : (reduceMod modWord x).toNat = x.toNat % intModulus := by
  rw [toNat_reduceMod_of_ne (by decide), toNat_modWord]

theorem toNat_otMax : (otMax modWord).toNat = intModulus - 1 := by decide

theorem toNat_powTwo {k : ℕ} (hk : k < 64) : (powTwo k).toNat = 2 ^ k := by
  rw [powTwo, UInt64.toNat_shiftLeft]
  have hlt : 2 ^ k < 2 ^ 64 := Nat.pow_lt_pow_right one_lt_two hk
  simp [Nat.shiftLeft_eq, Nat.mod_eq_of_lt hk, Nat.mod_eq_of_lt (show k < 18446744073709551616 by omega),
    Nat.mod_eq_of_lt (show 2 ^ k < 18446744073709551616 from hlt)]

theorem toNat_minusPow {k : ℕ} (hk : k < 64) : (otMax modWord - powTwo k + 1).toNat = intModulus - 2 ^ k := by
  have hp : intModulus = 2 ^ 63 + 2 ^ 19 + 1 := rfl
  have hpow : 2 ^ k ≤ 2 ^ 63 := Nat.pow_le_pow_right two_pos (by omega)
  have hpos := Nat.two_pow_pos k
  have hle : powTwo k ≤ otMax modWord := by
    rw [UInt64.le_iff_toNat_le, toNat_powTwo hk, toNat_otMax]
    omega
  rw [UInt64.toNat_add, UInt64.toNat_sub_of_le _ _ hle, toNat_powTwo hk, toNat_otMax, UInt64.toNat_one,
    Nat.mod_eq_of_lt (by omega)]
  omega

theorem toNat_shiftBits (num : UInt64) (k : ℕ) : (shiftBits num k).toNat = num.toNat / 2 ^ k := by
  induction k with
  | zero => simp [shiftBits]
  | succ k ih =>
    rw [shiftBits, UInt64.toNat_shiftRight, ih, pow_succ, ← Nat.div_div_eq_div_mul]
    rfl

theorem toNat_boolShare (num : UInt64) (k : ℕ) : (boolShare num k).toNat = (num.toNat.testBit k).toNat := by
  rw [boolShare, UInt64.toNat_mod, toNat_shiftBits, Nat.toNat_testBit]
  rfl

theorem boolShare_eq_one_iff (num : UInt64) (k : ℕ) : boolShare num k = 1 ↔ num.toNat.testBit k = true := by
  rw [← UInt64.toNat_inj, toNat_boolShare]
  cases num.toNat.testBit k <;> decide

theorem toNat_foldl_reduceMod_of_ne {mod : UInt64} (hmod : mod ≠ 0) (t : ℕ → UInt64) (n : ℕ) :
    ((List.range n).foldl (fun ret k => reduceMod mod (ret + t k)) 0).toNat =
      acc (2 ^ 64) mod.toNat (fun k => (t k).toNat) n := by
  induction n with
  | zero => rfl
  | succ n ih =>
    rw [List.range_succ, List.foldl_append, List.foldl_cons, List.foldl_nil, toNat_reduceMod_of_ne hmod,
      UInt64.toNat_add, ih, acc]

theorem toNat_foldl_reduceMod (t : ℕ → UInt64) (n : ℕ) :
    ((List.range n).foldl (fun ret k => reduceMod modWord (ret + t k)) 0).toNat =
      acc (2 ^ 64) intModulus (fun k => (t k).toNat) n := by
  rw [toNat_foldl_reduceMod_of_ne (by decide), toNat_modWord]

/-! ### One value -/

section Value

/-- The residue that a word masks with. -/
def mask (word : UInt64) : ℕ := word.toNat % intModulus

variable (word : ℕ → UInt64) (x0 x1 : UInt64)

/-- What the sender adds for bit `k`. -/
def senderTerm (k : ℕ) : ℕ := (x0.toNat.testBit k).toNat * 2 ^ k + (intModulus - mask (word k))

/-- What the receiver's bit chooses for bit `k`, before any reduction. -/
def chosenTerm (k : ℕ) : ℕ :=
  mask (word k) + if x1.toNat.testBit k then (if x0.toNat.testBit k then intModulus - 2 ^ k else 2 ^ k) else 0

/-- No sum passes `2 ^ 64`: not the offer for a bit that both sides have set, and neither accumulation. -/
structure NoWrap (numBits : ℕ) : Prop where
  offered : ∀ k < numBits, x0.toNat.testBit k = true → x1.toNat.testBit k = true →
    mask (word k) + (intModulus - 2 ^ k) < 2 ^ 64
  sender : ∀ k < numBits,
    (∑ i ∈ range k, senderTerm word x0 i) % intModulus + senderTerm word x0 k < 2 ^ 64
  receiver : ∀ k < numBits,
    (∑ i ∈ range k, chosenTerm word x0 x1 i) % intModulus + chosenTerm word x0 x1 k % intModulus < 2 ^ 64

/-- The two results for one value: the sender's and the receiver's. -/
def intsumSender (numBits : ℕ) : UInt64 :=
  (List.range numBits).foldl (fun ret k =>
    reduceMod modWord (ret + intsumTerm modWord (word k) (boolShare x0 k) k)) 0

def intsumReceived (k : ℕ) : UInt64 :=
  otChoose (intsumPair modWord (word k) (boolShare x0 k) k) (boolShare x1 k = 1)

def intsumReceiver (numBits : ℕ) : UInt64 :=
  (List.range numBits).foldl (fun ret k => reduceMod modWord (ret + intsumReceived word x0 x1 k)) 0

variable {word x0 x1}

theorem mask_lt (w : UInt64) : mask w < intModulus := Nat.mod_lt _ (by decide)

theorem two_pow_le {k : ℕ} (hk : k < 63) : 0 < 2 ^ k ∧ 2 ^ k ≤ 2 ^ 62 :=
  ⟨Nat.two_pow_pos k, Nat.pow_le_pow_right two_pos (by omega)⟩

theorem toNat_intsumTerm {k : ℕ} (hk : k < 63) :
    (intsumTerm modWord (word k) (boolShare x0 k) k).toNat = senderTerm word x0 k := by
  obtain ⟨hlow, hhigh⟩ := two_pow_lt_intModulus
  obtain ⟨hpos, hpow⟩ := two_pow_le hk
  have hmask := mask_lt (word k)
  have hle : reduceMod modWord (word k) ≤ otMax modWord := by
    rw [UInt64.le_iff_toNat_le, toNat_reduceMod, toNat_otMax]
    unfold mask at hmask
    omega
  have hminus : (otMax modWord - reduceMod modWord (word k) + 1).toNat = intModulus - mask (word k) := by
    rw [UInt64.toNat_add, UInt64.toNat_sub_of_le _ _ hle, toNat_reduceMod, toNat_otMax]
    unfold mask at hmask ⊢
    rw [UInt64.toNat_one, Nat.mod_eq_of_lt (by omega)]
    omega
  have hprod : (boolShare x0 k * powTwo k).toNat = (x0.toNat.testBit k).toNat * 2 ^ k := by
    rw [UInt64.toNat_mul, toNat_boolShare, toNat_powTwo (by omega)]
    apply Nat.mod_eq_of_lt
    have hbit := Bool.toNat_le (x0.toNat.testBit k)
    have := Nat.mul_le_mul_right (2 ^ k) hbit
    omega
  have hbit := Nat.mul_le_mul_right (2 ^ k) (Bool.toNat_le (x0.toNat.testBit k))
  rw [intsumTerm, UInt64.toNat_add, hminus, hprod, senderTerm]
  exact Nat.mod_eq_of_lt (by omega)

theorem toNat_intsumReceived {k : ℕ} (hk : k < 63) :
    (intsumReceived word x0 x1 k).toNat = chosenTerm word x0 x1 k % 2 ^ 64 % intModulus := by
  obtain ⟨hlow, hhigh⟩ := two_pow_lt_intModulus
  obtain ⟨hpos, hpow⟩ := two_pow_le hk
  have hmask := mask_lt (word k)
  have hzero : boolShare x0 k = 0 ↔ x0.toNat.testBit k = false := by
    rw [← UInt64.toNat_inj, toNat_boolShare]
    cases x0.toNat.testBit k <;> decide
  have hone : (decide (boolShare x1 k = 1)) = x1.toNat.testBit k := by
    rw [Bool.eq_iff_iff, decide_eq_true_iff, boolShare_eq_one_iff]
  rw [intsumReceived, hone, chosenTerm]
  cases hx1 : x1.toNat.testBit k with
  | false =>
    have hfit : mask (word k) < 2 ^ 64 := by omega
    simp only [otChoose, Bool.false_eq_true, if_false, intsumPair, toNat_reduceMod, Nat.add_zero]
    rw [Nat.mod_eq_of_lt hfit, Nat.mod_eq_of_lt hmask]
    rfl
  | true =>
    simp only [otChoose, if_true, intsumPair, toNat_reduceMod, UInt64.toNat_add]
    cases hx0 : x0.toNat.testBit k with
    | false =>
      rw [if_pos (hzero.mpr hx0), toNat_powTwo (by omega)]
      rfl
    | true =>
      have hne : boolShare x0 k ≠ 0 := fun h => Bool.noConfusion (hx0.symm.trans (hzero.mp h))
      rw [if_neg hne, toNat_minusPow (by omega)]
      rfl

variable {numBits : ℕ} (hbits : numBits ≤ 63)
include hbits

theorem toNat_intsumSender :
    (intsumSender word x0 numBits).toNat = acc (2 ^ 64) intModulus (senderTerm word x0) numBits := by
  rw [intsumSender, toNat_foldl_reduceMod]
  exact acc_congr fun k hk => toNat_intsumTerm (by omega)

theorem toNat_intsumReceiver :
    (intsumReceiver word x0 x1 numBits).toNat =
      acc (2 ^ 64) intModulus (fun k => chosenTerm word x0 x1 k % 2 ^ 64 % intModulus) numBits := by
  rw [intsumReceiver, toNat_foldl_reduceMod]
  exact acc_congr fun k hk => toNat_intsumReceived (by omega)

omit hbits in
theorem senderTerm_le {k : ℕ} (hk : k < 63) : senderTerm word x0 k + intModulus ≤ 2 * 2 ^ 64 := by
  obtain ⟨hlow, hhigh⟩ := two_pow_lt_intModulus
  obtain ⟨hpos, hpow⟩ := two_pow_le hk
  have hbit := Nat.mul_le_mul_right (2 ^ k) (Bool.toNat_le (x0.toNat.testBit k))
  rw [senderTerm]
  omega

omit hbits in
theorem chosenTerm_lt {k : ℕ} (hk : k < 63) : chosenTerm word x0 x1 k < 2 * 2 ^ 64 := by
  obtain ⟨hlow, hhigh⟩ := two_pow_lt_intModulus
  obtain ⟨hpos, hpow⟩ := two_pow_le hk
  have hmask := mask_lt (word k)
  rw [chosenTerm]
  split_ifs <;> omega

omit hbits in
/-- Only the offer for a bit that both sides have set can pass `2 ^ 64`. -/
theorem two_pow_le_chosenTerm_iff {k : ℕ} (hk : k < 63) :
    2 ^ 64 ≤ chosenTerm word x0 x1 k ↔ x0.toNat.testBit k = true ∧ x1.toNat.testBit k = true ∧
      2 ^ 64 ≤ mask (word k) + (intModulus - 2 ^ k) := by
  obtain ⟨hlow, hhigh⟩ := two_pow_lt_intModulus
  obtain ⟨hpos, hpow⟩ := two_pow_le hk
  have hmask := mask_lt (word k)
  rw [chosenTerm]
  cases x0.toNat.testBit k <;> cases x1.toNat.testBit k <;> simp <;> omega

omit hbits in
theorem senderTerm_add_chosenTerm {k : ℕ} (hk : k < 63) :
    senderTerm word x0 k + chosenTerm word x0 x1 k ≡ 2 ^ k * ((x0 ^^^ x1).toNat.testBit k).toNat [MOD intModulus] := by
  obtain ⟨hlow, hhigh⟩ := two_pow_lt_intModulus
  obtain ⟨hpos, hpow⟩ := two_pow_le hk
  have hmask := mask_lt (word k)
  have hmultiple : ∃ c, senderTerm word x0 k + chosenTerm word x0 x1 k =
      2 ^ k * ((x0 ^^^ x1).toNat.testBit k).toNat + intModulus * c := by
    rw [senderTerm, chosenTerm, UInt64.toNat_xor, Nat.testBit_xor]
    cases x0.toNat.testBit k <;> cases x1.toNat.testBit k
    · exact ⟨1, by simp; omega⟩
    · exact ⟨1, by simp; omega⟩
    · exact ⟨1, by simp; omega⟩
    · exact ⟨2, by simp; omega⟩
  obtain ⟨c, hc⟩ := hmultiple
  rw [hc]
  exact Nat.add_mul_mod_self_left _ _ _

omit hbits in
theorem sum_two_pow_testBit (x n : ℕ) : ∑ k ∈ range n, 2 ^ k * (x.testBit k).toNat = x % 2 ^ n := by
  induction n with
  | zero => simp [Nat.mod_one]
  | succ n ih => rw [sum_range_succ, ih, Nat.toNat_testBit, Nat.mod_pow_succ]

/-- How many sums passed `2 ^ 64` for one value: in the offers, the sender's and the receiver's additions. -/
def valueWraps (word : ℕ → UInt64) (x0 x1 : UInt64) (numBits : ℕ) : ℕ :=
  ((range numBits).filter fun k => 2 ^ 64 ≤ chosenTerm word x0 x1 k).card +
    wraps (2 ^ 64) intModulus (senderTerm word x0) numBits +
    wraps (2 ^ 64) intModulus (fun k => chosenTerm word x0 x1 k % 2 ^ 64 % intModulus) numBits

theorem sum_received_add_offers (word : ℕ → UInt64) (x0 x1 : UInt64) :
    ∑ k ∈ range numBits, chosenTerm word x0 x1 k % 2 ^ 64 % intModulus +
        2 ^ 64 * ((range numBits).filter fun k => 2 ^ 64 ≤ chosenTerm word x0 x1 k).card ≡
      ∑ k ∈ range numBits, chosenTerm word x0 x1 k [MOD intModulus] := by
  rw [card_filter, mul_sum, ← sum_add_distrib]
  refine Nat.ModEq.sum fun k hk => ?_
  have hk := mem_range.mp hk
  have hword : chosenTerm word x0 x1 k % 2 ^ 64 % intModulus ≡ chosenTerm word x0 x1 k % 2 ^ 64 [MOD intModulus] :=
    Nat.mod_modEq _ _
  have hsum := hword.add_right (2 ^ 64 * if 2 ^ 64 ≤ chosenTerm word x0 x1 k then 1 else 0)
  have hlt : chosenTerm word x0 x1 k < 2 * 2 ^ 64 := chosenTerm_lt (by omega)
  rwa [mod_word hlt] at hsum

theorem intsum_value_add_wraps (word : ℕ → UInt64) (x0 x1 : UInt64) :
    (intsumSender word x0 numBits).toNat + (intsumReceiver word x0 x1 numBits).toNat +
        2 ^ 64 * valueWraps word x0 x1 numBits ≡ (x0 ^^^ x1).toNat % 2 ^ numBits [MOD intModulus] := by
  let received := fun k => chosenTerm word x0 x1 k % 2 ^ 64 % intModulus
  let offers := ((range numBits).filter fun k => 2 ^ 64 ≤ chosenTerm word x0 x1 k).card
  let sent := wraps (2 ^ 64) intModulus (senderTerm word x0) numBits
  let got := wraps (2 ^ 64) intModulus received numBits
  have hp : 0 < intModulus := by decide
  have hsender := acc_add_wraps (B := 2 ^ 64) hp (n := numBits) (a := senderTerm word x0)
    fun k hk => senderTerm_le (by omega)
  have hreceiver := acc_add_wraps (B := 2 ^ 64) hp (n := numBits) (a := received) fun k hk => by
    have hlt : received k < intModulus := Nat.mod_lt _ hp
    have := two_pow_lt_intModulus
    omega
  have hoffers := sum_received_add_offers hbits word x0 x1
  have hvalue : ∑ k ∈ range numBits, senderTerm word x0 k + ∑ k ∈ range numBits, chosenTerm word x0 x1 k ≡
      (x0 ^^^ x1).toNat % 2 ^ numBits [MOD intModulus] := by
    rw [← sum_add_distrib, ← sum_two_pow_testBit]
    refine Nat.ModEq.sum fun k hk => ?_
    have hk := mem_range.mp hk
    exact senderTerm_add_chosenTerm (by omega)
  rw [toNat_intsumSender hbits, toNat_intsumReceiver hbits]
  calc acc (2 ^ 64) intModulus (senderTerm word x0) numBits + acc (2 ^ 64) intModulus received numBits +
        2 ^ 64 * valueWraps word x0 x1 numBits
      = (acc (2 ^ 64) intModulus (senderTerm word x0) numBits + 2 ^ 64 * sent) +
          (acc (2 ^ 64) intModulus received numBits + 2 ^ 64 * got) + 2 ^ 64 * offers := by
        simp only [valueWraps, sent, got, offers, received]
        ring
    _ ≡ ∑ k ∈ range numBits, senderTerm word x0 k + ∑ k ∈ range numBits, received k + 2 ^ 64 * offers
          [MOD intModulus] := (hsender.add hreceiver).add_right _
    _ = ∑ k ∈ range numBits, senderTerm word x0 k + (∑ k ∈ range numBits, received k + 2 ^ 64 * offers) := by
        ring
    _ ≡ ∑ k ∈ range numBits, senderTerm word x0 k + ∑ k ∈ range numBits, chosenTerm word x0 x1 k
          [MOD intModulus] := hoffers.add_left _
    _ ≡ (x0 ^^^ x1).toNat % 2 ^ numBits [MOD intModulus] := hvalue

omit hbits in
theorem sum_chosen_mod (hfit : ∀ k < numBits, chosenTerm word x0 x1 k < 2 ^ 64) {n : ℕ} (hn : n ≤ numBits) :
    (∑ k ∈ range n, chosenTerm word x0 x1 k % 2 ^ 64 % intModulus) % intModulus =
      (∑ k ∈ range n, chosenTerm word x0 x1 k) % intModulus := by
  refine Nat.ModEq.sum fun k hk => ?_
  have hk := mem_range.mp hk
  rw [Nat.mod_eq_of_lt (hfit k (by omega))]
  exact Nat.mod_modEq _ _

theorem valueWraps_eq_zero_iff : valueWraps word x0 x1 numBits = 0 ↔ NoWrap word x0 x1 numBits := by
  have hoffers : ((range numBits).filter fun k => 2 ^ 64 ≤ chosenTerm word x0 x1 k).card = 0 ↔
      ∀ k < numBits, chosenTerm word x0 x1 k < 2 ^ 64 := by
    rw [card_eq_zero, filter_eq_empty_iff]
    simp
  have hoffered : (∀ k < numBits, chosenTerm word x0 x1 k < 2 ^ 64) ↔
      ∀ k < numBits, x0.toNat.testBit k = true → x1.toNat.testBit k = true →
        mask (word k) + (intModulus - 2 ^ k) < 2 ^ 64 := by
    apply forall₂_congr
    intro k hk
    rw [← not_le, two_pow_le_chosenTerm_iff (by omega)]
    constructor
    · intro h hx0 hx1
      exact not_le.mp fun hge => h ⟨hx0, hx1, hge⟩
    · rintro h ⟨hx0, hx1, hge⟩
      exact absurd (h hx0 hx1) (not_lt.mpr hge)
  rw [valueWraps, Nat.add_eq_zero_iff, Nat.add_eq_zero_iff, hoffers, wraps_eq_zero_iff, wraps_eq_zero_iff]
  constructor
  · rintro ⟨⟨hfit, hsender⟩, hreceiver⟩
    refine ⟨hoffered.mp hfit, hsender, fun k hk => ?_⟩
    have hk' := hreceiver k hk
    rwa [sum_chosen_mod hfit hk.le, Nat.mod_eq_of_lt (hfit k hk)] at hk'
  · intro h
    have hfit := hoffered.mpr h.offered
    refine ⟨⟨hfit, h.sender⟩, fun k hk => ?_⟩
    rw [sum_chosen_mod hfit hk.le, Nat.mod_eq_of_lt (hfit k hk)]
    exact h.receiver k hk

omit hbits in
theorem noWrap_zero (x1 : UInt64) (hbits : numBits ≤ 62) : NoWrap (fun _ => 0) 0 x1 numBits := by
  have hp := two_pow_lt_intModulus
  have hmask : mask 0 = 0 := rfl
  have hsender : ∀ k, senderTerm (fun _ => 0) 0 k = intModulus := by
    intro k
    simp [senderTerm, hmask]
  have hchosen : ∀ k, chosenTerm (fun _ => 0) 0 x1 k = 2 ^ k * (x1.toNat.testBit k).toNat := by
    intro k
    cases hbit : x1.toNat.testBit k <;> simp [chosenTerm, hmask, hbit]
  refine ⟨fun k _ hx0 => ?_, fun k hk => ?_, fun k hk => ?_⟩
  · simp at hx0
  · simp only [hsender, sum_const, card_range, smul_eq_mul, Nat.mul_mod_left]
    omega
  · have hpow : 2 ^ k ≤ 2 ^ 61 := Nat.pow_le_pow_right two_pos (by omega)
    have hsum : x1.toNat % 2 ^ k < 2 ^ k := Nat.mod_lt _ (Nat.two_pow_pos k)
    have hterm : 2 ^ k * (x1.toNat.testBit k).toNat ≤ 2 ^ k * 1 := Nat.mul_le_mul_left _ (Bool.toNat_le _)
    simp only [hchosen, sum_two_pow_testBit]
    have hmod := Nat.mod_le (x1.toNat % 2 ^ k) intModulus
    have hmod' := Nat.mod_le (2 ^ k * (x1.toNat.testBit k).toNat) intModulus
    omega

theorem intsum_value_iff :
    (intsumSender word x0 numBits).toNat + (intsumReceiver word x0 x1 numBits).toNat ≡
        (x0 ^^^ x1).toNat % 2 ^ numBits [MOD intModulus] ↔ NoWrap word x0 x1 numBits := by
  rw [← valueWraps_eq_zero_iff hbits]
  refine modEq_iff_lost_eq_zero (by decide) ?_ (intsum_value_add_wraps hbits word x0 x1)
  -- fewer wraps than the modulus
  have hoffers := (card_filter_le (range numBits) fun k => 2 ^ 64 ≤ chosenTerm word x0 x1 k).trans
    (card_range _).le
  have hsent := wraps_le (B := 2 ^ 64) (p := intModulus) (a := senderTerm word x0) numBits
  have hgot := wraps_le (B := 2 ^ 64) (p := intModulus)
    (a := fun k => chosenTerm word x0 x1 k % 2 ^ 64 % intModulus) numBits
  have := two_pow_lt_intModulus
  rw [valueWraps]
  omega

end Value

end PrioPlus
