import Mathlib.Algebra.BigOperators.Intervals
import Mathlib.Data.List.GetD
import PrioPlus.Lib.FlatLoop

/-!
# Sums by oblivious transfer, `ot.cpp`

The sender masks each of its bits with a random word and offers the masked bit and its complement, the receiver
chooses with its own bit, and the two sums of what each side keeps add up to the sum of the xors. All arithmetic is
on 64-bit words. A `mod` of zero leaves the sums modulo `2 ^ 64`: there the conversion is exact
(`bitsumOtSender_add_bitsumOtReceiver`).

The words that `emp::PRG` draws are a function of the array position they are written to.
-/

namespace PrioPlus

open Finset Lib.FlatLoop

/-- The entry of a pair that a bit chooses. -/
def otChoose (pair : UInt64 × UInt64) (b : Bool) : UInt64 := if b then pair.2 else pair.1

/-- The constant `max` of the senders. -/
def otMax (mod : UInt64) : UInt64 := if mod = 0 then 0xFFFFFFFFFFFFFFFF else mod - 1

/-- `if (mod != 0) x %= mod`. -/
def reduceMod (mod x : UInt64) : UInt64 := if mod = 0 then x else x % mod

/-! ### `bitsum_ot` -/

/-- `b0[i]` and `b1[i]` of `bitsum_ot_sender`. An invalid slot is offered as zeros. -/
def bitsumPair (mod word : UInt64) (share valid : Bool) : UInt64 × UInt64 :=
  if valid then
    let b0 := reduceMod mod word
    (b0, b0 + 1 - 2 * share.toUInt64)
  else (0, 0)

/-- `bitsum_ot_sender`: the offered pairs and the returned sum. -/
def bitsumOtSender (mod : UInt64) (prg : ℕ → UInt64) (n : ℕ) (shares valid : List Bool) :
    List (UInt64 × UInt64) × UInt64 :=
  let pair := fun i => bitsumPair mod (prg i) (shares.getD i false) (valid.getD i false)
  let sum := (List.range n).foldl (fun sum i =>
    if valid.getD i false then
      reduceMod mod (sum + ((otMax mod - (pair i).1 + 1) + (shares.getD i false).toUInt64))
    else sum) 0
  ((List.range n).map pair, sum)

/-- `bitsum_ot_receiver`, on the words that the transfer returned. -/
def bitsumOtReceiver (mod : UInt64) (r : List UInt64) : UInt64 :=
  r.foldl (fun sum x => reduceMod mod (sum + x)) 0

@[simp] theorem length_bitsumOtSender (mod : UInt64) (prg : ℕ → UInt64) (n : ℕ) (shares valid : List Bool) :
    (bitsumOtSender mod prg n shares valid).1.length = n := by simp [bitsumOtSender]

theorem zipWith_otChoose_range (f : ℕ → UInt64 × UInt64) {n : ℕ} {choices : List Bool} (hlen : choices.length = n) :
    List.zipWith otChoose ((List.range n).map f) choices =
      (List.range n).map fun i => otChoose (f i) (choices.getD i false) := by
  apply List.ext_getElem
  · simp [hlen]
  · intro i hi _
    have hchoice : i < choices.length := by
      rw [List.length_zipWith] at hi
      omega
    simp only [List.getElem_zipWith, List.getElem_map, List.getElem_range, List.getD_eq_getElem _ _ hchoice]

/-- One slot: the mask cancels and leaves the xor. -/
theorem bitsum_slot (word sum0 sum1 : UInt64) (share choice : Bool) :
    (sum0 + ((otMax 0 - (bitsumPair 0 word share true).1 + 1) + share.toUInt64)) +
        (sum1 + otChoose (bitsumPair 0 word share true) choice) =
      sum0 + sum1 + UInt64.ofNat (share ^^ choice).toNat := by
  have hfalse : false.toUInt64 = 0 := rfl
  have htrue : true.toUInt64 = 1 := rfl
  cases share <;> cases choice <;> simp [bitsumPair, otChoose, otMax, reduceMod, hfalse, htrue] <;> grind

theorem otChoose_invalid (mod word : UInt64) (share choice : Bool) :
    otChoose (bitsumPair mod word share false) choice = 0 := by
  cases choice <;> rfl

theorem bitsumOtSender_add_bitsumOtReceiver (prg : ℕ → UInt64) (n : ℕ) (shares valid choices : List Bool)
    (hlen : choices.length = n) :
    (bitsumOtSender 0 prg n shares valid).2 +
        bitsumOtReceiver 0 (List.zipWith otChoose (bitsumOtSender 0 prg n shares valid).1 choices) =
      UInt64.ofNat (∑ i ∈ range n,
        if valid.getD i false then (shares.getD i false ^^ choices.getD i false).toNat else 0) := by
  unfold bitsumOtSender
  simp only [zipWith_otChoose_range _ hlen]
  clear hlen
  unfold bitsumOtReceiver
  induction n with
  | zero => rfl
  | succ n ih =>
    simp only [List.range_succ, List.map_append, List.map_singleton, List.foldl_append, List.foldl_cons,
      List.foldl_nil, sum_range_succ, UInt64.ofNat_add]
    rw [← ih]
    cases valid.getD n false with
    | true => exact bitsum_slot _ _ _ _ _
    | false =>
      simp only [otChoose_invalid]
      simp [reduceMod]

end PrioPlus
