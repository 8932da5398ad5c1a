import Mathlib.Data.List.GetD
import PrioPlus.Server.Common

/-!
# `accumulate` and the end of an operation

Each server adds up its converted shares over the valid inputs, server 1 sends its sums over, and server 0 adds them
to its own unless too few inputs are valid. The combined value `j` is the sum, over the valid inputs, of the two
shares of their value `j` (`accumulated_reaches`, `getD_sumAccumulates_accumulate`).
-/

namespace PrioPlus

open Finset Lib.TwoParty

/-- `accumulate`: the sums and the number of valid inputs. -/
def accumulate (numInputs numValues : ℕ) (sharesP : List ℤ) (valid : List Bool) : List ℤ × ℕ :=
  (List.range numInputs).foldl (fun st i =>
    if valid.getD i false then
      ((List.range numValues).map fun j => (st.1.getD j 0 + sharesP.getD (i * numValues + j) 0) % intModulus,
        st.2 + 1)
    else st) (List.replicate numValues 0, 0)

def sumAccumulates (numValues : ℕ) (a b : List ℤ) : List ℤ :=
  (List.range numValues).map fun j => (a.getD j 0 + b.getD j 0) % intModulus

/-- Server 1's end of an operation. The sums are made by `new_fmpz_array`. -/
def sendAccumulated (numInputs numValues : ℕ) (sharesP : List ℤ) (valid : List Bool) : Server Unit := do
  loopTo numValues
  sendMsg (.fmpzBatch (accumulate numInputs numValues sharesP valid).1)

/-- Server 0's end of an operation: the count, and the combined sums unless it is below the threshold. -/
def recvAccumulated (totalInputs numInputs numValues : ℕ) (sharesP : List ℤ) (valid : List Bool) :
    Server (ℕ × Option (List ℤ)) := do
  let a := accumulate numInputs numValues sharesP valid
  loopTo numValues
  let b ← recvFmpzBatch numValues
  if belowThreshold a.2 totalInputs then return (a.2, none)
  else return (a.2, some (sumAccumulates numValues a.1 b))

section Accumulate

variable (numInputs numValues : ℕ) (sharesP : List ℤ) (valid : List Bool)

theorem accumulate_succ : accumulate (numInputs + 1) numValues sharesP valid =
    if valid.getD numInputs false then
      ((List.range numValues).map fun j => ((accumulate numInputs numValues sharesP valid).1.getD j 0 +
          sharesP.getD (numInputs * numValues + j) 0) % intModulus,
        (accumulate numInputs numValues sharesP valid).2 + 1)
    else accumulate numInputs numValues sharesP valid := by
  rw [accumulate, List.range_succ, List.foldl_append]
  rfl

@[simp] theorem length_accumulate : (accumulate numInputs numValues sharesP valid).1.length = numValues := by
  induction numInputs with
  | zero => simp [accumulate]
  | succ n ih =>
    rw [accumulate_succ]
    split_ifs
    · simp
    · exact ih

theorem cast_getD_accumulate {j : ℕ} (hj : j < numValues) :
    (((accumulate numInputs numValues sharesP valid).1.getD j 0 : ℤ) : ZMod intModulus) =
      ∑ i ∈ range numInputs with valid.getD i false, (sharesP.getD (i * numValues + j) 0 : ZMod intModulus) := by
  induction numInputs with
  | zero => simp [accumulate, List.getD_eq_getElem?_getD, hj]
  | succ n ih =>
    rw [accumulate_succ, range_add_one, filter_insert]
    by_cases hvalid : valid.getD n false
    · rw [if_pos hvalid, if_pos hvalid, sum_insert (by simp), ← ih]
      simp only [getD_map_range, if_pos hj, cast_emod, Int.cast_add]
      exact add_comm _ _
    · rw [if_neg hvalid, if_neg hvalid, ih]

theorem accumulate_count :
    (accumulate numInputs numValues sharesP valid).2 = #{i ∈ range numInputs | valid.getD i false} := by
  induction numInputs with
  | zero => simp [accumulate]
  | succ n ih =>
    rw [accumulate_succ, range_add_one, filter_insert]
    by_cases hvalid : valid.getD n false
    · rw [if_pos hvalid, if_pos hvalid, card_insert_of_notMem (by simp), ← ih]
    · rw [if_neg hvalid, if_neg hvalid, ih]

end Accumulate

/-- What server 0 ends with. -/
def accumulatedOutcome (totalInputs numInputs numValues : ℕ) (sharesP0 sharesP1 : List ℤ) (valid : List Bool) :
    ℕ × Option (List ℤ) :=
  let numValid := #{i ∈ range numInputs | valid.getD i false}
  if 2 * numValid < totalInputs then (numValid, none)
  else (numValid, some (sumAccumulates numValues (accumulate numInputs numValues sharesP0 valid).1
    (accumulate numInputs numValues sharesP1 valid).1))

section Run

variable (totalInputs numInputs : ℕ) {numValues : ℕ} (sharesP0 sharesP1 : List ℤ) (valid : List Bool)

theorem accumulated_reaches (hvalues : numValues < 2 ^ 32) :
    Reaches
      (.start (recvAccumulated totalInputs numInputs numValues sharesP0 valid)
        (sendAccumulated numInputs numValues sharesP1 valid))
      (.done (accumulatedOutcome totalInputs numInputs numValues sharesP0 sharesP1 valid) ()) := by
  refine Reaches.bind (reaches_loopTo hvalues hvalues) ?_
  refine Reaches.bind (reaches_recvAs10 (if_pos (length_accumulate _ _ _ _))) ?_
  have hthreshold := belowThreshold_iff #{i ∈ range numInputs | valid.getD i false} totalInputs
  simp only [accumulatedOutcome, accumulate_count, hthreshold]
  split_ifs
  · exact Reaches.refl _
  · exact Reaches.refl _

theorem accumulated_hangs (hvalues : ¬ numValues < 2 ^ 32) :
    Hangs (recvAccumulated totalInputs numInputs numValues sharesP0 valid)
      (sendAccumulated numInputs numValues sharesP1 valid) :=
  (hangs_loopTo hvalues hvalues).bind _ _

end Run

theorem filter_replicate_true (n : ℕ) : {i ∈ range n | (List.replicate n true).getD i false} = range n := by
  apply filter_true_of_mem
  intro i hi
  simp [List.getD_eq_getElem?_getD, mem_range.mp hi]

theorem accumulatedOutcome_replicate {totalInputs numInputs : ℕ} (h : totalInputs ≤ 2 * numInputs) (numValues : ℕ)
    (sharesP0 sharesP1 : List ℤ) :
    accumulatedOutcome totalInputs numInputs numValues sharesP0 sharesP1 (List.replicate numInputs true) =
      (numInputs, some (sumAccumulates numValues
        (accumulate numInputs numValues sharesP0 (List.replicate numInputs true)).1
        (accumulate numInputs numValues sharesP1 (List.replicate numInputs true)).1)) := by
  rw [accumulatedOutcome, filter_replicate_true, card_range, if_neg (by omega)]

theorem getD_sumAccumulates_accumulate (numInputs : ℕ) {numValues j : ℕ} (hj : j < numValues)
    (sharesP0 sharesP1 : List ℤ) (valid : List Bool) :
    (((sumAccumulates numValues (accumulate numInputs numValues sharesP0 valid).1
        (accumulate numInputs numValues sharesP1 valid).1).getD j 0 : ℤ) : ZMod intModulus) =
      ∑ i ∈ range numInputs with valid.getD i false,
        ((sharesP0.getD (i * numValues + j) 0 : ZMod intModulus) + sharesP1.getD (i * numValues + j) 0) := by
  rw [sumAccumulates, getD_map_range, if_pos hj, cast_emod, Int.cast_add, cast_getD_accumulate _ _ _ _ hj,
    cast_getD_accumulate _ _ _ _ hj, sum_add_distrib]

theorem sumAccumulates_range {numValues j : ℕ} (hj : j < numValues) (a b : List ℤ) :
    0 ≤ (sumAccumulates numValues a b).getD j 0 ∧ (sumAccumulates numValues a b).getD j 0 < intModulus := by
  have hpos : (0 : ℤ) < intModulus := by decide
  rw [sumAccumulates, getD_map_range, if_pos hj]
  exact ⟨Int.emod_nonneg _ hpos.ne', Int.emod_lt_of_pos _ hpos⟩

theorem getD_sumAccumulates_eq (numInputs : ℕ) {numValues j : ℕ} (hj : j < numValues) (sharesP0 sharesP1 : List ℤ)
    (valid : List Bool) :
    (sumAccumulates numValues (accumulate numInputs numValues sharesP0 valid).1
        (accumulate numInputs numValues sharesP1 valid).1).getD j 0 =
      (∑ i ∈ range numInputs with valid.getD i false,
        (sharesP0.getD (i * numValues + j) 0 + sharesP1.getD (i * numValues + j) 0)) % intModulus := by
  have hpos : (0 : ℤ) < intModulus := by decide
  apply eq_of_cast_eq (sumAccumulates_range hj _ _) ⟨Int.emod_nonneg _ hpos.ne', Int.emod_lt_of_pos _ hpos⟩
  rw [getD_sumAccumulates_accumulate _ hj, cast_emod]
  push_cast
  rfl

end PrioPlus
