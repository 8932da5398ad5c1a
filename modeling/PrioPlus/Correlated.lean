import Mathlib.Data.Int.Bitwise
import Mathlib.Tactic.LinearCombination
import PrioPlus.Ot.IntSum
import PrioPlus.Server.Net

/-!
# Share conversion, `correlated.cpp`

`b2a_ot` and `b2a_daBit_multi` turn xor shares of words into additive shares modulo `Int_Modulus`. The daBit
conversion reconstructs the xor whatever the shares and the daBits (`daBitMulti_reconstructs`); the conversion by
oblivious transfer does so exactly when its 32-bit counters get through and none of its 64-bit sums wraps
(`b2aOt_correct_iff`).

The daBits come from the store of each server, in the order in which the loop takes them.
-/

namespace PrioPlus

open Finset Lib.TwoParty Lib.FlatLoop

/-- The halves agree on a bit. -/
def CorrelatedDaBits (d0 d1 : ℕ → DaBit) : Prop :=
  ∀ i, (d0 i).bp + (d1 i).bp ≡ ((d0 i).b2 ^^ (d1 i).b2).toNat [ZMOD intModulus]

/-- Halves of zero, which are correlated. -/
def zeroDaBits : ℕ → DaBit := fun _ => { bp := 0, b2 := false }

theorem correlatedDaBits_zero : CorrelatedDaBits zeroDaBits zeroDaBits := fun _ => Int.ModEq.refl _

/-! ### The conversions -/

/-- The masked bits that `b2a_daBit_single` sends. -/
def maskedBits (dabits : ℕ → DaBit) (x : List Bool) : List Bool :=
  (List.range x.length).map fun i => x.getD i false ^^ (dabits i).b2

/-- The shares that `b2a_daBit_single` returns. -/
def daBitShares (serverNum : ℕ) (dabits : ℕ → DaBit) (vThis vOther : List Bool) : List ℤ :=
  (List.range vThis.length).map fun i =>
    if vThis.getD i false ^^ vOther.getD i false then (-(dabits i).bp + serverNum) % intModulus
    else (dabits i).bp

/-- The messages of `b2a_daBit_single`. -/
def openDaBits (serverNum : ℕ) (dabits : ℕ → DaBit) (x : List Bool) : Server (List ℤ) := do
  let vThis := maskedBits dabits x
  sendMsg (.boolBatch vThis)
  let vOther ← recvBoolBatch x.length
  return daBitShares serverNum dabits vThis vOther

/-- `b2a_daBit_single`, whose loops count to the number of bits. -/
def b2aDaBitSingle (serverNum : ℕ) (dabits : ℕ → DaBit) (x : List Bool) : Server (List ℤ) := do
  loopTo x.length
  openDaBits serverNum dabits x

/-- The bits of `n` values, one value after the other. -/
def valueBits (n : ℕ) (numBits : ℕ → ℕ) (bit : ℕ → ℕ → Bool) : List Bool :=
  (List.range n).flatMap fun i => (List.range (numBits i)).map (bit i)

/-- The weighted sums of `b2a_daBit_multi`. -/
def multiSums (n : ℕ) (numBits : ℕ → ℕ) (tmp : List ℤ) : List ℤ :=
  (List.range n).map fun i =>
    sumMod intModulus (numBits i) fun j => tmp.getD (offset numBits i + j) 0 * (powTwo j).toNat

/-- `b2a_daBit_multi`, which reads the bits with `fmpz_tstbit`. -/
def b2aDaBitMulti (serverNum : ℕ) (dabits : ℕ → DaBit) (n : ℕ) (numBits : ℕ → ℕ) (x : ℕ → ℤ) : Server (List ℤ) := do
  loopTo n
  let tmp ← b2aDaBitSingle serverNum dabits (valueBits n numBits fun i j => (x i).testBit j)
  return multiSums n numBits tmp

/-- A matrix of words as a flat array. -/
def flatWords (numShares numValues : ℕ) (xp : ℕ → ℕ → UInt64) : List ℤ :=
  (List.range numShares).flatMap fun i => (List.range numValues).map fun j => ((xp i j).toNat : ℤ)

/-- `b2a_ot`. Server 0 is the sender. Its counters go over the shares and the values, those of `OT_Wrapper` over all
transfers, and that of `new_fmpz_array` over all values. The number of transfers is not reduced modulo `2 ^ 64`: where a
`size_t` would wrap, the buffers of that size are overrun before. -/
def b2aOt (prg : ℕ → UInt64) (serverNum numShares numValues : ℕ) (numBits : ℕ → ℕ) (x : List UInt64)
    (mod : UInt64) : Server (List ℤ) := do
  let x2 := fun i j => x.getD (i * numValues + j) 0
  loopTo numShares
  loopTo numValues
  if serverNum = 0 then do
    let sent := intsumOtSender mod prg x2 (fun _ => true) numBits numShares numValues
    loopTo (numShares * offset numBits numValues)
    sendMsg (.ot sent.1)
    loopTo (numShares * numValues)
    return flatWords numShares numValues sent.2
  else do
    let r ← otRecv (intsumChoices x2 numBits numShares numValues)
    loopTo (numShares * offset numBits numValues)
    loopTo (numShares * numValues)
    return flatWords numShares numValues (intsumOtReceiver mod r numBits numValues)

/-- `share_convert`, with `USE_OT_B2A`. -/
def shareConvert (prg : ℕ → UInt64) (serverNum numShares numValues : ℕ) (numBits : ℕ → ℕ) (shares2 : List UInt64) :
    Server (List ℤ) := do
  loopTo (numShares * numValues)
  b2aOt prg serverNum numShares numValues numBits shares2 modWord

/-! ### Conversion by daBits -/

theorem length_maskedBits (dabits : ℕ → DaBit) (x : List Bool) : (maskedBits dabits x).length = x.length := by
  simp [maskedBits]

theorem openDaBits_reaches (d0 d1 : ℕ → DaBit) {x0 x1 : List Bool} (hlen : x0.length = x1.length) :
    Reaches (.start (openDaBits 0 d0 x0) (openDaBits 1 d1 x1))
      (.done (daBitShares 0 d0 (maskedBits d0 x0) (maskedBits d1 x1))
        (daBitShares 1 d1 (maskedBits d1 x1) (maskedBits d0 x0))) := by
  apply reaches_exchange
  · exact if_pos ((length_maskedBits d1 x1).trans hlen.symm)
  · exact if_pos ((length_maskedBits d0 x0).trans hlen)

theorem b2aDaBitSingle_reaches (d0 d1 : ℕ → DaBit) {x0 x1 : List Bool} (hlen : x0.length = x1.length)
    (hx : x0.length < 2 ^ 32) :
    Reaches (.start (b2aDaBitSingle 0 d0 x0) (b2aDaBitSingle 1 d1 x1))
      (.done (daBitShares 0 d0 (maskedBits d0 x0) (maskedBits d1 x1))
        (daBitShares 1 d1 (maskedBits d1 x1) (maskedBits d0 x0))) :=
  Reaches.bind (reaches_loopTo hx (hlen ▸ hx)) (openDaBits_reaches d0 d1 hlen)

theorem b2aDaBitSingle_hangs (d0 d1 : ℕ → DaBit) {x0 x1 : List Bool} (hlen : x0.length = x1.length)
    (hx : ¬ x0.length < 2 ^ 32) : Hangs (b2aDaBitSingle 0 d0 x0) (b2aDaBitSingle 1 d1 x1) :=
  (hangs_loopTo hx (hlen ▸ hx)).bind _ _

theorem flip_add {p : ℕ} {bp0 bp1 : ZMod p} {b x : Bool} (h : bp0 + bp1 = b.toNat) :
    (if x ^^ b then -bp0 else bp0) + (if x ^^ b then -bp1 + 1 else bp1) = x.toNat := by
  cases x <;> cases b <;> simp at h ⊢
  · exact h
  · linear_combination -h
  · linear_combination -h
  · exact h

theorem getD_maskedBits (dabits : ℕ → DaBit) {x : List Bool} {i : ℕ} (hi : i < x.length) :
    (maskedBits dabits x).getD i false = (x.getD i false ^^ (dabits i).b2) := by
  rw [maskedBits, getD_map_range, if_pos hi]

theorem getD_daBitShares (serverNum : ℕ) (dabits : ℕ → DaBit) {vThis vOther : List Bool} {i : ℕ}
    (hi : i < vThis.length) :
    (((daBitShares serverNum dabits vThis vOther).getD i 0 : ℤ) : ZMod intModulus) =
      if vThis.getD i false ^^ vOther.getD i false then -((dabits i).bp : ZMod intModulus) + serverNum
      else (dabits i).bp := by
  rw [daBitShares, getD_map_range, if_pos hi]
  split_ifs <;> simp

theorem daBitShares_add {d0 d1 : ℕ → DaBit} (hcorr : CorrelatedDaBits d0 d1) {x0 x1 : List Bool}
    (hlen : x0.length = x1.length) {i : ℕ} (hi : i < x0.length) :
    (daBitShares 0 d0 (maskedBits d0 x0) (maskedBits d1 x1)).getD i 0 +
        (daBitShares 1 d1 (maskedBits d1 x1) (maskedBits d0 x0)).getD i 0 ≡
      (x0.getD i false ^^ x1.getD i false).toNat [ZMOD intModulus] := by
  have hi1 : i < x1.length := hlen ▸ hi
  have hb : ((d0 i).bp : ZMod intModulus) + (d1 i).bp = ((d0 i).b2 ^^ (d1 i).b2).toNat := by
    have hcorr := (ZMod.intCast_eq_intCast_iff _ _ _).mpr (hcorr i)
    push_cast at hcorr
    exact hcorr
  have hswap : ∀ a0 a1 b0 b1 : Bool, (a0 ^^ b0 ^^ (a1 ^^ b1)) = (a0 ^^ a1 ^^ (b0 ^^ b1)) ∧
      (a1 ^^ b1 ^^ (a0 ^^ b0)) = (a0 ^^ a1 ^^ (b0 ^^ b1)) := by decide
  obtain ⟨hopen0, hopen1⟩ := hswap (x0.getD i false) (x1.getD i false) (d0 i).b2 (d1 i).b2
  rw [← ZMod.intCast_eq_intCast_iff, Int.cast_add,
    getD_daBitShares 0 d0 (by rwa [length_maskedBits]), getD_daBitShares 1 d1 (by rwa [length_maskedBits]),
    getD_maskedBits d0 hi, getD_maskedBits d1 hi1, hopen0, hopen1, Nat.cast_zero, Nat.cast_one, add_zero,
    flip_add hb]
  push_cast
  rfl

theorem getD_valueBits {n : ℕ} {numBits : ℕ → ℕ} (bit : ℕ → ℕ → Bool) {i j : ℕ} (hi : i < n) (hj : j < numBits i) :
    (valueBits n numBits bit).getD (offset numBits i + j) false = bit i j := by
  have hget := getElem?_flatMap_map_range bit numBits hi hj
  rw [valueBits, List.getD_eq_getElem?_getD, hget, Option.getD_some]

theorem length_valueBits (n : ℕ) (numBits : ℕ → ℕ) (bit : ℕ → ℕ → Bool) :
    (valueBits n numBits bit).length = offset numBits n := by
  rw [valueBits, length_flatMap_range]
  simp

theorem multiSums_add {d0 d1 : ℕ → DaBit} (hcorr : CorrelatedDaBits d0 d1) {n : ℕ} (numBits : ℕ → ℕ)
    (bit0 bit1 : ℕ → ℕ → Bool) {i : ℕ} (hi : i < n) (hbits : numBits i ≤ 64) :
    let masked0 := maskedBits d0 (valueBits n numBits bit0)
    let masked1 := maskedBits d1 (valueBits n numBits bit1)
    (multiSums n numBits (daBitShares 0 d0 masked0 masked1)).getD i 0 +
        (multiSums n numBits (daBitShares 1 d1 masked1 masked0)).getD i 0 ≡
      (∑ j ∈ range (numBits i), 2 ^ j * (bit0 i j ^^ bit1 i j).toNat : ℕ) [ZMOD intModulus] := by
  intro masked0 masked1
  have hlen : (valueBits n numBits bit0).length = (valueBits n numBits bit1).length := by
    rw [length_valueBits, length_valueBits]
  have hblock := offset_mono numBits (Nat.succ_le_of_lt hi)
  rw [offset_succ] at hblock
  rw [← ZMod.intCast_eq_intCast_iff, Int.cast_add]
  simp only [multiSums, getD_map_range, if_pos hi, cast_sumMod]
  rw [← sum_add_distrib]
  push_cast
  apply sum_congr rfl
  intro j hj
  have hj := mem_range.mp hj
  have hbit := daBitShares_add hcorr hlen (i := offset numBits i + j) (by rw [length_valueBits]; omega)
  rw [← ZMod.intCast_eq_intCast_iff, getD_valueBits bit0 hi hj, getD_valueBits bit1 hi hj] at hbit
  push_cast at hbit
  rw [toNat_powTwo (by omega), ← add_mul, hbit]
  push_cast
  ring

section Multi

variable (d0 d1 : ℕ → DaBit) {n : ℕ} {numBits : ℕ → ℕ} (x0 x1 : ℕ → ℤ)

/-- The shares that a server returns. -/
def daBitMultiOut (serverNum : ℕ) (dThis dOther : ℕ → DaBit) (n : ℕ) (numBits : ℕ → ℕ) (xThis xOther : ℕ → ℤ) :
    List ℤ :=
  multiSums n numBits (daBitShares serverNum dThis
    (maskedBits dThis (valueBits n numBits fun i j => (xThis i).testBit j))
    (maskedBits dOther (valueBits n numBits fun i j => (xOther i).testBit j)))

theorem b2aDaBitMulti_reaches (hn : n < 2 ^ 32) (htotal : offset numBits n < 2 ^ 32) :
    Reaches (.start (b2aDaBitMulti 0 d0 n numBits x0) (b2aDaBitMulti 1 d1 n numBits x1))
      (.done (daBitMultiOut 0 d0 d1 n numBits x0 x1) (daBitMultiOut 1 d1 d0 n numBits x1 x0)) := by
  refine Reaches.bind (reaches_loopTo hn hn) (Reaches.bind (b2aDaBitSingle_reaches d0 d1 ?_ ?_) (Reaches.refl _))
  · rw [length_valueBits, length_valueBits]
  · rwa [length_valueBits]

theorem b2aDaBitMulti_hangs (h : ¬ (n < 2 ^ 32 ∧ offset numBits n < 2 ^ 32)) :
    Hangs (b2aDaBitMulti 0 d0 n numBits x0) (b2aDaBitMulti 1 d1 n numBits x1) := by
  by_cases hn : n < 2 ^ 32
  · refine Reaches.bind_hangs (reaches_loopTo hn hn) ((b2aDaBitSingle_hangs d0 d1 ?_ ?_).bind _ _)
    · rw [length_valueBits, length_valueBits]
    · rw [length_valueBits]
      exact fun htotal => h ⟨hn, htotal⟩
  · exact (hangs_loopTo hn hn).bind _ _

/-- The number that the low bits of `x` make up. -/
def lowBits (numBits : ℕ) (x : ℤ) : ℕ := ∑ j ∈ range numBits, 2 ^ j * (x.testBit j).toNat

theorem lowBits_natCast (numBits x : ℕ) : lowBits numBits x = x % 2 ^ numBits := sum_two_pow_testBit x numBits

variable {d0 d1}

theorem daBitMulti_reconstructs (hcorr : CorrelatedDaBits d0 d1) {i : ℕ} (hi : i < n) (hbits : numBits i ≤ 64) :
    (daBitMultiOut 0 d0 d1 n numBits x0 x1).getD i 0 + (daBitMultiOut 1 d1 d0 n numBits x1 x0).getD i 0 ≡
      lowBits (numBits i) (Int.xor (x0 i) (x1 i)) [ZMOD intModulus] := by
  have hsums := multiSums_add hcorr numBits (fun i j => (x0 i).testBit j) (fun i j => (x1 i).testBit j) hi hbits
  simp only [← Int.testBit_lxor] at hsums
  exact hsums

end Multi

/-! ### Conversion by oblivious transfer -/

section Ot

variable (prg prg' : ℕ → UInt64) (numShares numValues : ℕ) (numBits : ℕ → ℕ) (x0 x1 : List UInt64)

/-- Value `j` of share `i` in a flat array. -/
def valueAt (x : List UInt64) (numValues i j : ℕ) : UInt64 := x.getD (i * numValues + j) 0

/-- What server 0 sends and returns. -/
def b2aOtSent (mod : UInt64) : List (UInt64 × UInt64) × (ℕ → ℕ → UInt64) :=
  intsumOtSender mod prg (valueAt x0 numValues) (fun _ => true) numBits numShares numValues

/-- What server 1 receives. -/
def b2aOtReceived (mod : UInt64) : List UInt64 :=
  List.zipWith otChoose (b2aOtSent prg numShares numValues numBits x0 mod).1
    (intsumChoices (valueAt x1 numValues) numBits numShares numValues)

def b2aOtOut0 (mod : UInt64) : List ℤ :=
  flatWords numShares numValues (b2aOtSent prg numShares numValues numBits x0 mod).2

def b2aOtOut1 (mod : UInt64) : List ℤ :=
  flatWords numShares numValues
    (intsumOtReceiver mod (b2aOtReceived prg numShares numValues numBits x0 x1 mod) numBits numValues)

/-- The counters get through. -/
structure OtFits (numShares numValues : ℕ) (numBits : ℕ → ℕ) : Prop where
  shares : numShares < 2 ^ 32
  values : numValues < 2 ^ 32
  transfers : numShares * offset numBits numValues < 2 ^ 32
  results : numShares * numValues < 2 ^ 32

variable {numShares numValues numBits}

theorem OtFits.of_le (h : OtFits numShares numValues numBits) {n : ℕ} (hn : n ≤ numShares) :
    OtFits n numValues numBits where
  shares := hn.trans_lt h.shares
  values := h.values
  transfers := (Nat.mul_le_mul_right _ hn).trans_lt h.transfers
  results := (Nat.mul_le_mul_right _ hn).trans_lt h.results

theorem b2aOt_reaches (h : OtFits numShares numValues numBits) (mod : UInt64) :
    Reaches (.start (b2aOt prg 0 numShares numValues numBits x0 mod) (b2aOt prg' 1 numShares numValues numBits x1 mod))
      (.done (b2aOtOut0 prg numShares numValues numBits x0 mod)
        (b2aOtOut1 prg numShares numValues numBits x0 x1 mod)) := by
  simp only [b2aOt, loopTo_of_lt h.shares, loopTo_of_lt h.values, loopTo_of_lt h.transfers, loopTo_of_lt h.results,
    Proc.ret_bind]
  refine Reaches.bind (reaches_ot01 _ _ ?_) (Reaches.refl _)
  rw [intsumOtSender, intsumChoices, length_flatBits, length_flatBits]

theorem b2aOt_hangs (h : ¬ OtFits numShares numValues numBits) (mod : UInt64) :
    Hangs (b2aOt prg 0 numShares numValues numBits x0 mod) (b2aOt prg' 1 numShares numValues numBits x1 mod) := by
  by_cases hshares : numShares < 2 ^ 32
  · refine Reaches.bind_hangs (reaches_loopTo hshares hshares) ?_
    by_cases hvalues : numValues < 2 ^ 32
    · refine Reaches.bind_hangs (reaches_loopTo hvalues hvalues) ?_
      by_cases htransfers : numShares * offset numBits numValues < 2 ^ 32
      · have hresults : ¬ numShares * numValues < 2 ^ 32 := fun hlt => h ⟨hshares, hvalues, htransfers, hlt⟩
        simp only [if_neg one_ne_zero, loopTo_of_lt htransfers, Proc.ret_bind]
        refine Reaches.bind_hangs (reaches_ot01 _ _ ?_) ((hangs_loopTo hresults hresults).bind _ _)
        rw [intsumOtSender, intsumChoices, length_flatBits, length_flatBits]
      · rw [if_pos rfl, if_neg one_ne_zero, loopTo_of_not_lt htransfers]
        exact hangs_recv _
    · exact (hangs_loopTo hvalues hvalues).bind _ _
  · exact (hangs_loopTo hshares hshares).bind _ _

theorem shareConvert_reaches (h : OtFits numShares numValues numBits) :
    Reaches
      (.start (shareConvert prg 0 numShares numValues numBits x0) (shareConvert prg' 1 numShares numValues numBits x1))
      (.done (b2aOtOut0 prg numShares numValues numBits x0 modWord)
        (b2aOtOut1 prg numShares numValues numBits x0 x1 modWord)) :=
  Reaches.bind (reaches_loopTo h.results h.results) (b2aOt_reaches prg prg' x0 x1 h modWord)

theorem shareConvert_hangs (h : ¬ OtFits numShares numValues numBits) :
    Hangs (shareConvert prg 0 numShares numValues numBits x0) (shareConvert prg' 1 numShares numValues numBits x1) := by
  by_cases hresults : numShares * numValues < 2 ^ 32
  · exact Reaches.bind_hangs (reaches_loopTo hresults hresults) (b2aOt_hangs prg prg' x0 x1 h modWord)
  · exact (hangs_loopTo hresults hresults).bind _ _

variable {x0 x1}

theorem getD_flatWords (xp : ℕ → ℕ → UInt64) {i j : ℕ} (hi : i < numShares) (hj : j < numValues) :
    (flatWords numShares numValues xp).getD (i * numValues + j) 0 = (xp i j).toNat := by
  have hget := getElem?_flatMap_map_range (fun i j => ((xp i j).toNat : ℤ)) (fun _ => numValues) hi hj
  rw [offset_const] at hget
  rw [flatWords, List.getD_eq_getElem?_getD, hget, Option.getD_some]

theorem getD_b2aOtOut0 {i j : ℕ} (hi : i < numShares) (hj : j < numValues) :
    (b2aOtOut0 prg numShares numValues numBits x0 modWord).getD (i * numValues + j) 0 =
      (intsumSender (fun k => prg (bitIdx numValues numBits i j k)) (valueAt x0 numValues i j) (numBits j)).toNat :=
  getD_flatWords _ hi hj

theorem getD_b2aOtOut1 {i j : ℕ} (hi : i < numShares) (hj : j < numValues) :
    (b2aOtOut1 prg numShares numValues numBits x0 x1 modWord).getD (i * numValues + j) 0 =
      (intsumReceiver (fun k => prg (bitIdx numValues numBits i j k)) (valueAt x0 numValues i j)
        (valueAt x1 numValues i j) (numBits j)).toNat := by
  rw [b2aOtOut1, getD_flatWords _ hi hj]
  refine congrArg (fun w : UInt64 => (w.toNat : ℤ)) (List.foldl_ext _ _ _ fun ret k hk => ?_)
  rw [b2aOtReceived, b2aOtSent, intsumOtSender, intsumChoices,
    getD_zipWith_flatBits _ _ hi hj (List.mem_range.mp hk)]
  rfl

/-- The outputs are shares of the xors of the low bits. -/
def Reconstructs (numShares numValues : ℕ) (numBits : ℕ → ℕ) (x0 x1 : List UInt64) (out0 out1 : List ℤ) : Prop :=
  ∀ i < numShares, ∀ j < numValues,
    out0.getD (i * numValues + j) 0 + out1.getD (i * numValues + j) 0 ≡
      ((valueAt x0 numValues i j ^^^ valueAt x1 numValues i j).toNat % 2 ^ numBits j : ℕ) [ZMOD intModulus]

theorem reconstructs_b2aOt_iff (x0 x1 : List UInt64) (hbits : ∀ j < numValues, numBits j ≤ 63) :
    Reconstructs numShares numValues numBits x0 x1 (b2aOtOut0 prg numShares numValues numBits x0 modWord)
        (b2aOtOut1 prg numShares numValues numBits x0 x1 modWord) ↔
      ∀ i < numShares, ∀ j < numValues, NoWrap (fun k => prg (bitIdx numValues numBits i j k))
        (valueAt x0 numValues i j) (valueAt x1 numValues i j) (numBits j) := by
  refine forall₂_congr fun i hi => forall₂_congr fun j hj => ?_
  rw [getD_b2aOtOut0 prg hi hj, getD_b2aOtOut1 prg hi hj, ← intsum_value_iff (hbits j hj), ← Int.natCast_add,
    Int.natCast_modEq_iff]

end Ot

/-- The values of `b2a_daBit_multi`, from a flat array. -/
def wordValues (x : List UInt64) (idx : ℕ) : ℤ := (x.getD idx 0).toNat

theorem lowBits_wordValues (x0 x1 : List UInt64) (numBits idx : ℕ) :
    lowBits numBits (Int.xor (wordValues x0 idx) (wordValues x1 idx)) =
      (x0.getD idx 0 ^^^ x1.getD idx 0).toNat % 2 ^ numBits := by
  have hxor : Int.xor (wordValues x0 idx) (wordValues x1 idx) = ((x0.getD idx 0 ^^^ x1.getD idx 0).toNat : ℤ) := by
    rw [UInt64.toNat_xor]
    rfl
  rw [hxor, lowBits_natCast]

/-- The conversion by oblivious transfer ends with shares of the xors, the same value that the conversion by daBits
reconstructs. -/
def B2aOtCorrect (prg prg' : ℕ → UInt64) (numShares numValues : ℕ) (numBits : ℕ → ℕ) (x0 x1 : List UInt64) : Prop :=
  ∃ out0 out1,
    Terminates (b2aOt prg 0 numShares numValues numBits x0 modWord)
      (b2aOt prg' 1 numShares numValues numBits x1 modWord) out0 out1 ∧
    Reconstructs numShares numValues numBits x0 x1 out0 out1 ∧
    ∀ d0 d1, CorrelatedDaBits d0 d1 → ∃ ref0 ref1,
      Terminates (b2aDaBitMulti 0 d0 (numShares * numValues) (fun idx => numBits (idx % numValues)) (wordValues x0))
        (b2aDaBitMulti 1 d1 (numShares * numValues) (fun idx => numBits (idx % numValues)) (wordValues x1)) ref0 ref1 ∧
      ∀ i < numShares, ∀ j < numValues,
        out0.getD (i * numValues + j) 0 + out1.getD (i * numValues + j) 0 ≡
          ref0.getD (i * numValues + j) 0 + ref1.getD (i * numValues + j) 0 [ZMOD intModulus]

/-- The conversion by oblivious transfer is correct exactly when the counters get through and no 64-bit sum wraps. -/
theorem b2aOt_correct_iff (prg prg' : ℕ → UInt64) (numShares numValues : ℕ) (numBits : ℕ → ℕ)
    (hbits : ∀ j < numValues, numBits j ≤ 63) (x0 x1 : List UInt64) :
    B2aOtCorrect prg prg' numShares numValues numBits x0 x1 ↔
      OtFits numShares numValues numBits ∧
        ∀ i < numShares, ∀ j < numValues, NoWrap (fun k => prg (bitIdx numValues numBits i j k))
          (valueAt x0 numValues i j) (valueAt x1 numValues i j) (numBits j) := by
  by_cases hfits : OtFits numShares numValues numBits
  · have hterm := (b2aOt_reaches prg prg' x0 x1 hfits modWord).terminates
    rw [and_iff_right hfits]
    constructor
    · rintro ⟨out0, out1, hterm', hrec, -⟩
      obtain ⟨rfl, rfl⟩ := hterm.unique hterm'
      exact (reconstructs_b2aOt_iff prg x0 x1 hbits).mp hrec
    · intro hno
      have hrec := (reconstructs_b2aOt_iff prg x0 x1 hbits).mpr hno
      have htotal := hfits.transfers
      rw [← offset_mod] at htotal
      refine ⟨_, _, hterm, hrec, fun d0 d1 hcorr =>
        ⟨_, _, (b2aDaBitMulti_reaches d0 d1 _ _ hfits.results htotal).terminates, fun i hi j hj => ?_⟩⟩
      have hidx : i * numValues + j < numShares * numValues := by
        have := Nat.mul_le_mul_right numValues (Nat.succ_le_of_lt hi)
        rw [Nat.succ_mul] at this
        omega
      have hmod : (i * numValues + j) % numValues = j := by
        rw [Nat.add_comm, Nat.add_mul_mod_self_right, Nat.mod_eq_of_lt hj]
      have hdabit := @daBitMulti_reconstructs d0 d1 _ (fun idx => numBits (idx % numValues)) (wordValues x0)
        (wordValues x1) hcorr _ hidx (by rw [hmod]; have := hbits j hj; omega)
      rw [hmod, lowBits_wordValues] at hdabit
      exact (hrec i hi j hj).trans hdabit.symm
  · exact iff_of_false (b2aOt_hangs prg prg' x0 x1 hfits modWord).not_exists fun h => hfits h.1

/-- Every draw is one below the modulus. -/
def topWord : UInt64 := modWord - 1

theorem b2aOt_correct_iff_topWord :
    B2aOtCorrect (fun _ => topWord) (fun _ => 0) 1 1 (fun _ => 1) [0] [1] ↔
      OtFits 1 1 (fun _ => 1) ∧ ∀ i < 1, ∀ j < 1, NoWrap (fun k => (fun _ => topWord) (bitIdx 1 (fun _ => 1) i j k))
        (valueAt [0] 1 i j) (valueAt [1] 1 i j) 1 :=
  b2aOt_correct_iff (fun _ => topWord) (fun _ => 0) 1 1 (fun _ => 1) (by decide) [0] [1]

/-- One bit, set on both sides, under the mask `Int_Modulus - 1`: the results add up to `2 ^ 20 + 2`. -/
theorem not_b2aOtCorrect_topWord : ¬ B2aOtCorrect (fun _ => topWord) (fun _ => 0) 1 1 (fun _ => 1) [1] [1] := by
  rintro ⟨out0, out1, hterm, hrec, -⟩
  have hfits : OtFits 1 1 fun _ => 1 := ⟨by decide, by decide, by decide, by decide⟩
  have hreaches := b2aOt_reaches (fun _ => topWord) (fun _ => 0) [1] [1] hfits modWord
  obtain ⟨rfl, rfl⟩ := hreaches.terminates.unique hterm
  have hno := (reconstructs_b2aOt_iff _ _ _ (by decide)).mp hrec 0 one_pos 0 one_pos
  exact absurd (hno.offered 0 one_pos (by decide) (by decide)) (by decide)

end PrioPlus
