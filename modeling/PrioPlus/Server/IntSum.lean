import PrioPlus.Hash
import PrioPlus.Server.Accumulate
import PrioPlus.Server.ConvertCall
import PrioPlus.Server.Var

/-!
# `int_sum`

Each server keeps one word per input, converts its shares, and adds up the converted shares of the valid inputs. The
conversion is called for 10000 values per input, so it also reads what lies behind the array of shares; `heap` is
what it finds there.
-/

namespace PrioPlus

open Finset Lib.TwoParty Lib.FirstWins

/-- What `int_sum` leaves behind: its return value, the count that server 0 reports, and `ans` where it is set. -/
structure IntSumResult where
  ret : ReturnType
  numValid : ℕ
  ans : Option UInt64
deriving DecidableEq

/-- `nvalues`. -/
def gsize : ℕ := 10000

/-- The map after the receive loop: a known key is skipped, and so is a value that is too large. -/
def intShareMap (msg : InitMsg) (submissions : List IntShare) : ShareMap UInt64 :=
  collect (fun e => decide (e.2 < maxVal msg.numBits)) (submissions.map IntShare.entry)

/-- The call of `share_convert`, from the value of each slot. Server 0 has none for a key that it does not know. -/
def intSumCall (msg : InitMsg) (slots : List (Option UInt64)) : ConvertCall where
  alloc := slots.length
  written k := (slots[k]?).join
  numShares := slots.length
  numValues := gsize
  nbits _ := msg.numBits.toNat
  stride := 1

/-- The end of `int_sum` on server 0. -/
def intSumFinish (totalInputs numValid : ℕ) (a : List ℤ) (b : ℤ) : IntSumResult :=
  if belowThreshold numValid totalInputs then { ret := .invalid, numValid := numValid, ans := none }
  else { ret := .ans, numValid := numValid, ans := some (fmpzGetUi ((b + a.getD 0 0) % intModulus)) }

/-- `int_sum`. The assertion on the number of bits comes before the first message. -/
def intSum (it : Iteration UInt64) (prg : ℕ → UInt64) (heap : ℕ → UInt64) (msg : InitMsg) (serverNum : ℕ)
    (submissions : Vector IntShare msg.numOfInputs.toNat) : Server IntSumResult :=
  let totalInputs := msg.numOfInputs.toNat
  let shareMap := intShareMap msg submissions.toList
  if msg.numBits.toNat ≠ 63 then .stuck
  else if serverNum = 1 then do
    let entries := it.order shareMap
    let call := intSumCall msg (entries.map fun e => some e.2)
    sendMsg (.size entries.length)
    sendPks (entries.map Sigma.fst)
    let sharesP ← shareConvert prg 1 call.numShares call.numValues call.nbits (call.words heap)
    let valid ← recvBoolBatch entries.length
    sendMsg (.fmpz ((accumulate entries.length call.stride sharesP valid).1.getD 0 0))
    return { ret := .noAns, numValid := 0, ans := none }
  else do
    let numInputs ← recvSize
    let pks ← recvPks numInputs
    let call := intSumCall msg (pks.map fun pk => shareMap.lookup pk)
    let valid := pks.map fun pk => decide (pk ∈ shareMap)
    let sharesP ← shareConvert prg 0 call.numShares call.numValues call.nbits (call.words heap)
    sendMsg (.boolBatch valid)
    let a := accumulate pks.length call.stride sharesP valid
    let b ← recvFmpz
    return intSumFinish totalInputs a.2 a.1 b

/-! ### The run -/

section Run

variable (it : Iteration UInt64) (prg : ℕ → UInt64) (heap0 heap1 : ℕ → UInt64) (msg : InitMsg) (m0 m1 : ShareMap UInt64)

/-- The call of server 0. -/
def intSumCall0 : ConvertCall := intSumCall msg (((it.order m1).map Sigma.fst).map fun pk => m0.lookup pk)

/-- The call of server 1. -/
def intSumCall1 : ConvertCall := intSumCall msg ((it.order m1).map fun e => some e.2)

/-- The array `valid`. -/
def intSumValid : List Bool := ((it.order m1).map Sigma.fst).map fun pk => decide (pk ∈ m0)

/-- What server 0 converts to. -/
def intSumShares0 : List ℤ :=
  b2aOtOut0 prg (it.order m1).length gsize (fun _ => msg.numBits.toNat) ((intSumCall0 it msg m0 m1).words heap0) modWord

/-- What server 1 converts to. -/
def intSumShares1 : List ℤ :=
  b2aOtOut1 prg (it.order m1).length gsize (fun _ => msg.numBits.toNat) ((intSumCall0 it msg m0 m1).words heap0)
    ((intSumCall1 it msg m1).words heap1) modWord

/-- Server 0's result. -/
def intSumOutcome (totalInputs : ℕ) : IntSumResult :=
  let valid := intSumValid it m0 m1
  let a := accumulate (it.order m1).length 1 (intSumShares0 it prg heap0 msg m0 m1) valid
  let b := accumulate (it.order m1).length 1 (intSumShares1 it prg heap0 heap1 msg m0 m1) valid
  intSumFinish totalInputs a.2 a.1 (b.1.getD 0 0)

end Run

/-- The counters of the conversion get through. -/
def IntSumFits (msg : InitMsg) (submissions1 : List IntShare) : Prop :=
  OtFits (intShareMap msg submissions1).entries.length gsize fun _ => msg.numBits.toNat

section Servers

variable (it0 it1 : Iteration UInt64) (prg0 prg1 heap0 heap1 : ℕ → UInt64) (msg : InitMsg)
  (hbits : msg.numBits.toNat = 63) (s0 s1 : Vector IntShare msg.numOfInputs.toNat)
include hbits

theorem intSum_terminates (hfits : IntSumFits msg s1.toList) :
    Terminates (intSum it0 prg0 heap0 msg 0 s0) (intSum it1 prg1 heap1 msg 1 s1)
      (intSumOutcome it1 prg0 heap0 heap1 msg (intShareMap msg s0.toList)
        (intShareMap msg s1.toList) msg.numOfInputs.toNat)
      { ret := .noAns, numValid := 0, ans := none } := by
  rw [IntSumFits, ← it1.length_order] at hfits
  let m0 := intShareMap msg s0.toList
  let entries := it1.order (intShareMap msg s1.toList)
  let pks := entries.map Sigma.fst
  have hlen : pks.length = entries.length := List.length_map _
  have hcall0 : (intSumCall msg (pks.map fun pk => m0.lookup pk)).numShares = entries.length := by
    rw [intSumCall, List.length_map, hlen]
  have hcall1 : (intSumCall msg (entries.map fun e => some e.2)).numShares = entries.length := by
    rw [intSumCall, List.length_map]
  have hvalid : (pks.map fun pk => decide (pk ∈ m0)).length = entries.length := by rw [List.length_map, hlen]
  apply Reaches.terminates
  unfold intSum
  rw [if_neg (not_not_intro hbits), if_neg (not_not_intro hbits)]
  refine Reaches.bind (reaches_recvAs10 rfl) ?_
  refine Reaches.bind (a := pks) (b := ()) ?_ ?_
  · rw [← hlen]
    exact reaches_pks10 pks
  simp only [m0, pks, entries] at hcall0 hcall1 hvalid hlen ⊢
  simp only [hcall0, hcall1, hlen]
  refine Reaches.bind (shareConvert_reaches _ _ _ _ hfits) ?_
  refine Reaches.bind (reaches_recvAs01 (if_pos hvalid)) ?_
  refine Reaches.bind (reaches_recvAs10 rfl) ?_
  exact Reaches.refl _

theorem intSum_hangs (hfits : ¬ IntSumFits msg s1.toList) :
    Hangs (intSum it0 prg0 heap0 msg 0 s0) (intSum it1 prg1 heap1 msg 1 s1) := by
  rw [IntSumFits, ← it1.length_order] at hfits
  let pks := (it1.order (intShareMap msg s1.toList)).map Sigma.fst
  have hlen : pks.length = (it1.order (intShareMap msg s1.toList)).length := List.length_map _
  unfold intSum
  rw [if_neg (not_not_intro hbits), if_neg (not_not_intro hbits)]
  refine Reaches.bind_hangs (reaches_recvAs10 rfl) ?_
  refine Reaches.bind_hangs (a := pks) (b := ()) ?_ ?_
  · rw [← hlen]
    exact reaches_pks10 pks
  simp only [pks, intSumCall, List.length_map]
  exact (shareConvert_hangs _ _ _ _ hfits).bind _ _

end Servers

end PrioPlus
