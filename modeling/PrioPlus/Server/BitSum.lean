import PrioPlus.Server.Common

/-!
# `bit_sum`

Server 1 sends its keys in the order in which it iterates over its map, server 0 looks them up, and the sum runs
over the keys that both maps hold. Whatever the order, the masks and the schedule, server 0 ends with the number of
these keys and the sum of the xors of the first bits that the two servers received for them (`bitSum_spec`).
-/

namespace PrioPlus

open Finset Lib.TwoParty Lib.FirstWins

structure BitShare where
  pk : Pk
  val : Bool

/-- What `bit_sum` leaves behind: its return value, the count that server 0 reports, and `ans` where it is set. -/
structure BitSumResult where
  ret : ReturnType
  numValid : ℕ
  ans : Option UInt64
deriving DecidableEq

/-- The map after the receive loop: a known key is skipped. -/
def bitShareMap (submissions : List BitShare) : ShareMap Bool :=
  collect (fun _ => true) (submissions.map fun s => (s.pk, s.val))

/-- `bit_sum`. Slots of `shares` that are not valid are never written, and never read. -/
def bitSum (it : Iteration Bool) (prg : ℕ → UInt64) (msg : InitMsg) (serverNum : ℕ)
    (submissions : Vector BitShare msg.numOfInputs.toNat) : Server BitSumResult :=
  let totalInputs := msg.numOfInputs.toNat
  let shareMap := bitShareMap submissions.toList
  if serverNum = 1 then do
    let entries := it.order shareMap
    sendMsg (.size entries.length)
    sendPks (entries.map Sigma.fst)
    let r ← otRecv (entries.map Sigma.snd)
    sendMsg (.uint64 (bitsumOtReceiver 0 r))
    return { ret := .noAns, numValid := 0, ans := none }
  else do
    let numInputs ← recvSize
    let pks ← recvPks numInputs
    let valid := pks.map fun pk => decide (pk ∈ shareMap)
    let shares := pks.map fun pk => (shareMap.lookup pk).getD false
    let numValid := valid.count true
    let sent := bitsumOtSender 0 prg numInputs shares valid
    sendMsg (.ot sent.1)
    let b ← recvUint64
    if belowThreshold numValid totalInputs then
      return { ret := .invalid, numValid := numValid, ans := none }
    else
      return { ret := .ans, numValid := numValid, ans := some (sent.2 + b) }

/-! ### The run -/

/-- The keys among the submissions of one server. -/
def submittedPks (submissions : List BitShare) : Finset Pk := (submissions.map BitShare.pk).toFinset

/-- The first value that a server received for a key. -/
def firstVal (submissions : List BitShare) (pk : Pk) : Bool :=
  ((submissions.find? fun s => s.pk = pk).map BitShare.val).getD false

theorem mem_bitShareMap (submissions : List BitShare) (pk : Pk) :
    pk ∈ bitShareMap submissions ↔ pk ∈ submittedPks submissions := by
  simp [bitShareMap, mem_collect, submittedPks]

theorem lookup_bitShareMap (submissions : List BitShare) (pk : Pk) :
    ((bitShareMap submissions).lookup pk).getD false = firstVal submissions pk := by
  rw [bitShareMap, lookup_collect, firstVal, List.find?_map, Option.map_map]
  simp [Function.comp_def]

theorem keys_bitShareMap (submissions : List BitShare) :
    (bitShareMap submissions).keys.toFinset = submittedPks submissions := by
  ext pk
  rw [List.mem_toFinset, ← AList.mem_keys, mem_bitShareMap]

section Run

variable (it : Iteration Bool) (prg : ℕ → UInt64) (m : ShareMap Bool) (submissions : List BitShare)

theorem count_valid :
    (((it.order (bitShareMap submissions)).map Sigma.fst).map fun pk => decide (pk ∈ m)).count true =
      ((submittedPks submissions).filter (· ∈ m)).card := by
  rw [List.map_map, List.count, List.countP_map, ← keys_bitShareMap, ← countP_iteration (it.perm _)]
  apply List.countP_congr
  intro e _
  simp

theorem bitsum_over_order :
    let entries := it.order (bitShareMap submissions)
    let pks := entries.map Sigma.fst
    let sent := bitsumOtSender 0 prg entries.length (pks.map fun pk => (m.lookup pk).getD false)
      (pks.map fun pk => decide (pk ∈ m))
    sent.2 + bitsumOtReceiver 0 (List.zipWith otChoose sent.1 (entries.map Sigma.snd)) =
      UInt64.ofNat (∑ pk ∈ (submittedPks submissions).filter (· ∈ m),
        ((m.lookup pk).getD false ^^ firstVal submissions pk).toNat) := by
  intro entries pks sent
  let f : Pk → ℕ := fun pk => if pk ∈ m then ((m.lookup pk).getD false ^^ firstVal submissions pk).toNat else 0
  have hslots : ∀ (i : ℕ) (hi : i < entries.length),
      (if (pks.map fun pk => decide (pk ∈ m)).getD i false then
        ((pks.map fun pk => (m.lookup pk).getD false).getD i false ^^ (entries.map Sigma.snd).getD i false).toNat
        else 0) = f entries[i].1 := by
    intro i hi
    have hval : firstVal submissions entries[i].1 = entries[i].2 := by
      rw [← lookup_bitShareMap, lookup_of_mem_iteration (it.perm _) (List.getElem_mem hi), Option.getD_some]
    simp [f, pks, List.getD_eq_getElem?_getD, hi, hval]
  rw [bitsumOtSender_add_bitsumOtReceiver prg entries.length _ _ _ (List.length_map _),
    sum_range_eq_sum_map (f := fun e => f e.1) hslots, sum_map_iteration (it.perm _) f, keys_bitShareMap, sum_filter]

end Run

/-- The keys that both servers received. -/
def commonPks (submissions0 submissions1 : List BitShare) : Finset Pk :=
  submittedPks submissions0 ∩ submittedPks submissions1

/-- The sum of the xors of the first values, over the common keys. -/
def bitSumAnswer (submissions0 submissions1 : List BitShare) : ℕ :=
  ∑ pk ∈ commonPks submissions0 submissions1, (firstVal submissions0 pk ^^ firstVal submissions1 pk).toNat

/-- Server 0's result. -/
def bitSumOutcome (total : ℕ) (submissions0 submissions1 : List BitShare) : BitSumResult :=
  let numValid := (commonPks submissions0 submissions1).card
  if 2 * numValid < total then { ret := .invalid, numValid := numValid, ans := none }
  else { ret := .ans, numValid := numValid, ans := some (UInt64.ofNat (bitSumAnswer submissions0 submissions1)) }

theorem filter_mem_bitShareMap (submissions0 submissions1 : List BitShare) :
    (submittedPks submissions1).filter (· ∈ bitShareMap submissions0) = commonPks submissions0 submissions1 := by
  ext pk
  simp [commonPks, mem_bitShareMap, and_comm]

theorem bitSum_terminates (it0 it1 : Iteration Bool) (prg0 prg1 : ℕ → UInt64) (msg : InitMsg)
    (s0 s1 : Vector BitShare msg.numOfInputs.toNat) :
    Terminates (bitSum it0 prg0 msg 0 s0) (bitSum it1 prg1 msg 1 s1)
      (bitSumOutcome msg.numOfInputs.toNat s0.toList s1.toList) { ret := .noAns, numValid := 0, ans := none } := by
  apply Reaches.terminates
  let entries := it1.order (bitShareMap s1.toList)
  let pks := entries.map Sigma.fst
  have hlen : pks.length = entries.length := List.length_map _
  refine Reaches.bind (reaches_recvAs10 rfl) ?_
  refine Reaches.bind (a := pks) (b := ()) ?_ ?_
  · rw [← hlen]
    exact reaches_pks10 pks
  refine Reaches.bind (reaches_ot01 _ _ ?_) ?_
  · rw [length_bitsumOtSender, List.length_map]
  refine Reaches.bind (reaches_recvAs10 rfl) ?_
  have hcount := count_valid it1 (bitShareMap s0.toList) s1.toList
  have hsum := bitsum_over_order it1 prg0 (bitShareMap s0.toList) s1.toList
  simp only [filter_mem_bitShareMap, lookup_bitShareMap] at hcount hsum
  have hthreshold := belowThreshold_iff (commonPks s0.toList s1.toList).card msg.numOfInputs.toNat
  simp only [entries, pks, lookup_bitShareMap, hcount, hsum, bitSumOutcome, hthreshold]
  split_ifs
  · exact Reaches.refl _
  · exact Reaches.refl _

theorem bitSumAnswer_lt {n : UInt32} (s0 s1 : Vector BitShare n.toNat) :
    bitSumAnswer s0.toList s1.toList < 2 ^ 64 := by
  have hbit : ∀ pk ∈ commonPks s0.toList s1.toList,
      (firstVal s0.toList pk ^^ firstVal s1.toList pk).toNat ≤ 1 := fun pk _ => Bool.toNat_le _
  have hsub : (commonPks s0.toList s1.toList).card ≤ (submittedPks s0.toList).card :=
    card_le_card inter_subset_left
  have hkeys : (submittedPks s0.toList).card ≤ n.toNat :=
    (List.toFinset_card_le _).trans (by simp)
  have hn : n.toNat < 2 ^ 32 := n.toNat_lt
  have hsum := sum_le_card_nsmul _ _ 1 hbit
  rw [smul_eq_mul, mul_one] at hsum
  rw [bitSumAnswer]
  omega

theorem bitSum_spec (it0 it1 : Iteration Bool) (prg0 prg1 : ℕ → UInt64) (msg : InitMsg)
    (s0 s1 : Vector BitShare msg.numOfInputs.toNat) :
    ∃ r0 r1, Terminates (bitSum it0 prg0 msg 0 s0) (bitSum it1 prg1 msg 1 s1) r0 r1 ∧
      r0.numValid = (commonPks s0.toList s1.toList).card ∧
      (r0.ret = .invalid ↔ 2 * r0.numValid < msg.numOfInputs.toNat) ∧
      (r0.ret ≠ .invalid → r0.ret = .ans ∧ ∃ ans, r0.ans = some ans ∧
        ans.toNat = ∑ pk ∈ commonPks s0.toList s1.toList,
          (firstVal s0.toList pk ^^ firstVal s1.toList pk).toNat) := by
  refine ⟨_, _, bitSum_terminates it0 it1 prg0 prg1 msg s0 s1, ?_⟩
  have hval : (UInt64.ofNat (bitSumAnswer s0.toList s1.toList)).toNat = bitSumAnswer s0.toList s1.toList :=
    UInt64.toNat_ofNat_of_lt' (bitSumAnswer_lt s0 s1)
  unfold bitSumOutcome
  by_cases hlow : 2 * (commonPks s0.toList s1.toList).card < msg.numOfInputs.toNat
  · rw [if_pos hlow]
    exact ⟨rfl, iff_of_true rfl hlow, fun hne => absurd rfl hne⟩
  · rw [if_neg hlow]
    exact ⟨rfl, iff_of_false ReturnType.noConfusion hlow, fun _ => ⟨rfl, _, rfl, hval⟩⟩

end PrioPlus
