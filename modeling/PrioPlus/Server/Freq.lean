import PrioPlus.Server.BatchCheck

/-!
# `freq_op`

After the conversion server 0 compares the totals of the two servers. When they do not fit, it asks for the parity
and the sum of each input of server 1 and decides input by input. Server 1 answers with its `valid` buffer, which
nothing has written so far, in the place of its parities: the verdicts are right as far as that buffer happens to
hold the parities (`singleCheck_exact_iff`).
-/

namespace PrioPlus

open Finset Lib.TwoParty Lib.FlatLoop

/-- `max_inp`, `1ULL << msg.num_bits`. -/
def maxInp (msg : InitMsg) : ℕ := ((1 : UInt64) <<< msg.numBits.toUInt64).toNat

/-- What `freq_op` leaves behind, with the parities that server 1 sends, if it comes to that. -/
structure FreqResult extends TableResult (List ℤ) where
  paritySent : List Bool

/-- `parity[i]`. -/
def inputParity (maxInp : ℕ) (shares : List Bool) (i : ℕ) : Bool :=
  xorLoop maxInp fun j => shares.getD (i * maxInp + j) false

/-- `sums[i]`. -/
def inputSum (maxInp : ℕ) (sharesP : List ℤ) (i : ℕ) : ℤ :=
  sumMod intModulus maxInp fun j => sharesP.getD (i * maxInp + j) 0

/-- `total_parity` of server 1. -/
def totalParity (numInputs maxInp : ℕ) (shares : List Bool) : Bool :=
  (List.range numInputs).foldl (fun acc i =>
    (List.range maxInp).foldl (fun acc j => acc ^^ shares.getD (i * maxInp + j) false) acc) false

/-- `all_valid`. -/
def freqAllValid (totalInputs : ℕ) (parity parityOther : Bool) (sum sumOther : ℤ) : Bool :=
  let allValid := decide ((parity ^^ parityOther).toNat = totalInputs % 2)
  if allValid then decide ((sum + sumOther) % (intModulus : ℤ) = totalInputs) else allValid

/-- `valid[i]` after the loop over the single inputs. -/
def singleValid (valid parity parityOther : Bool) (sum sumOther : ℤ) : Bool :=
  if !valid then valid
  else if (parity ^^ parityOther) = false then false
  else if (sum + sumOther) % intModulus ≠ 1 then false
  else valid

/-- The single check of server 1, from its buffer: what it sends as parities, and the answer. -/
def sendSingleCheck (buffer : List Bool) (sums : List ℤ) : Server (List Bool × List Bool) := do
  sendMsg (.boolBatch buffer)
  sendMsg (.fmpzBatch sums)
  let valid ← recvBoolBatch sums.length
  return (buffer, valid)

/-- The single check of server 0. -/
def recvSingleCheck (valid parity : List Bool) (sums : List ℤ) : Server (List Bool) := do
  let parityOther ← recvBoolBatch valid.length
  let sumsOther ← recvFmpzBatch valid.length
  let valid := (List.range valid.length).map fun i => singleValid (valid.getD i false) (parity.getD i false)
    (parityOther.getD i false) (sums.getD i 0) (sumsOther.getD i 0)
  sendMsg (.boolBatch valid)
  return valid

/-- `freq_op`. The array `valid` of server 1 holds the bits `uninit` when it is allocated. -/
def freqOp (msg : InitMsg) (it : Iteration (Vector Bool (maxInp msg))) (dabits : ℕ → DaBit) (uninit : ℕ → Bool)
    (serverNum : ℕ) (submissions : Vector (FreqShare (maxInp msg)) msg.numOfInputs.toNat) : Server FreqResult :=
  let totalInputs := msg.numOfInputs.toNat
  let maxInp := maxInp msg
  let shareMap := freqShareMap submissions.toList
  if serverNum = 1 then do
    recvInputs totalInputs maxInp
    let shares ← sendFreqShares it shareMap
    let numInputs := shareMap.entries.length
    let sharesP ← b2aDaBitSingle serverNum dabits shares
    let sums := (List.range numInputs).map (inputSum maxInp sharesP)
    sendMsg (.bool (totalParity numInputs maxInp shares))
    sendMsg (.fmpz (sumMod intModulus numInputs fun i => sums.getD i 0))
    let allValid ← recvBool
    let checked ← (if allValid then .ret ([], List.replicate numInputs true)
      else sendSingleCheck ((List.range numInputs).map uninit) sums)
    sendAccumulated numInputs maxInp sharesP checked.2
    return { ret := .noAns, allValid, valid := checked.2, numValid := 0, ans := none, paritySent := checked.1 }
  else do
    recvInputs totalInputs maxInp
    let aligned ← recvFreqShares shareMap
    let numInputs := aligned.1.length
    let sharesP ← b2aDaBitSingle serverNum dabits aligned.2
    let parity := (List.range numInputs).map (inputParity maxInp aligned.2)
    let sums := (List.range numInputs).map (inputSum maxInp sharesP)
    let totalParityOther ← recvBool
    let sumOther ← recvFmpz
    let allValid := freqAllValid totalInputs (xorLoop numInputs fun i => parity.getD i false) totalParityOther
      (sumMod intModulus numInputs fun i => sums.getD i 0) sumOther
    sendMsg (.bool allValid)
    let valid ← (if allValid then .ret (List.replicate numInputs true) else recvSingleCheck aligned.1 parity sums)
    let freqs ← recvAccumulated totalInputs numInputs maxInp sharesP valid
    return { ret := if freqs.2.isSome then .ans else .invalid, allValid, valid, numValid := freqs.1, ans := freqs.2,
             paritySent := [] }

/-! ### The run -/

section Run

variable {size : ℕ} (it : Iteration (Vector Bool size)) (d0 d1 : ℕ → DaBit) (uninit : ℕ → Bool)
  (totalInputs : ℕ) (s0 s1 : List (FreqShare size))

/-- `sums` of a server. -/
def freqSums (serverNum : ℕ) (dThis dOther : ℕ → DaBit) (pks : List Pk) (sThis sOther : List (FreqShare size)) :
    List ℤ :=
  (List.range pks.length).map (inputSum size (convertedShares serverNum dThis dOther pks sThis sOther))

/-- `parity` of server 0. -/
def freqParity (pks : List Pk) (s0 : List (FreqShare size)) : List Bool :=
  (List.range pks.length).map (inputParity size (alignedShares pks s0))

/-- The verdict of the batch check. -/
def freqVerdict : Bool :=
  let pks := alignedPks it s1
  freqAllValid totalInputs (xorLoop pks.length fun i => (freqParity pks s0).getD i false)
    (totalParity pks.length size (alignedShares pks s1))
    (sumMod intModulus pks.length fun i => (freqSums 0 d0 d1 pks s0 s1).getD i 0)
    (sumMod intModulus pks.length fun i => (freqSums 1 d1 d0 pks s1 s0).getD i 0)

/-- The verdicts of the single check. -/
def freqSingle : List Bool :=
  let pks := alignedPks it s1
  (List.range pks.length).map fun i => singleValid ((matched pks s0).getD i false)
    ((freqParity pks s0).getD i false) (((List.range pks.length).map uninit).getD i false)
    ((freqSums 0 d0 d1 pks s0 s1).getD i 0) ((freqSums 1 d1 d0 pks s1 s0).getD i 0)

/-- The final `valid` array. -/
def freqValid : List Bool :=
  if freqVerdict it d0 d1 totalInputs s0 s1 then List.replicate (alignedPks it s1).length true
  else freqSingle it d0 d1 uninit s0 s1

/-- Server 0's result. -/
def freqOutcome0 : FreqResult :=
  let pks := alignedPks it s1
  let valid := freqValid it d0 d1 uninit totalInputs s0 s1
  let freqs := accumulatedOutcome totalInputs pks.length size (convertedShares 0 d0 d1 pks s0 s1)
    (convertedShares 1 d1 d0 pks s1 s0) valid
  { ret := if freqs.2.isSome then .ans else .invalid, allValid := freqVerdict it d0 d1 totalInputs s0 s1, valid,
    numValid := freqs.1, ans := freqs.2, paritySent := [] }

/-- Server 1's result. -/
def freqOutcome1 : FreqResult :=
  { ret := .noAns, allValid := freqVerdict it d0 d1 totalInputs s0 s1,
    valid := freqValid it d0 d1 uninit totalInputs s0 s1, numValid := 0, ans := none,
    paritySent := if freqVerdict it d0 d1 totalInputs s0 s1 then [] else
      (List.range (alignedPks it s1).length).map uninit }

theorem singleCheck_reaches {valid parity buffer : List Bool} {sums0 sums1 : List ℤ}
    (hbuffer : buffer.length = valid.length) (hsums : sums1.length = valid.length) :
    let checked := (List.range valid.length).map fun i => singleValid (valid.getD i false) (parity.getD i false)
      (buffer.getD i false) (sums0.getD i 0) (sums1.getD i 0)
    Reaches (.start (recvSingleCheck valid parity sums0) (sendSingleCheck buffer sums1))
      (.done checked (buffer, checked)) := by
  intro checked
  have hlen : checked.length = sums1.length := by
    rw [hsums]
    simp [checked]
  refine Reaches.bind (reaches_recvAs10 (if_pos hbuffer)) ?_
  refine Reaches.bind (reaches_recvAs10 (if_pos hsums)) ?_
  exact Reaches.bind (reaches_recvAs01 (if_pos hlen)) (Reaches.refl _)

theorem check_reaches (allValid : Bool) {valid parity buffer : List Bool} {sums0 sums1 : List ℤ}
    (hbuffer : buffer.length = valid.length) (hsums : sums1.length = valid.length) (accepted : List Bool) :
    let checked := if allValid then accepted else
      (List.range valid.length).map fun i => singleValid (valid.getD i false) (parity.getD i false)
        (buffer.getD i false) (sums0.getD i 0) (sums1.getD i 0)
    Reaches (.start (if allValid then .ret accepted else recvSingleCheck valid parity sums0)
        (if allValid then .ret ([], accepted) else sendSingleCheck buffer sums1))
      (.done checked (if allValid then [] else buffer, checked)) := by
  cases allValid with
  | true => exact Reaches.refl _
  | false => exact singleCheck_reaches hbuffer hsums

end Run

/-- The one row of `freq_op`. -/
def freqRows (msg : InitMsg) : List (ℕ × ℕ) := [(0, maxInp msg)]

theorem countersFit_freqRows (msg : InitMsg) {submissions1 : List (FreqShare (maxInp msg))} :
    CountersFit (freqRows msg) submissions1 ↔
      maxInp msg < 2 ^ 32 ∧ (freqPks submissions1).card * maxInp msg < 2 ^ 32 := by
  refine ⟨fun h => ⟨h.array, h.bits⟩, fun h => .of_rows h.1 h.2 (Nat.one_lt_two_pow (by decide)) ?_⟩
  simp [freqRows]

section Phases

variable (msg : InitMsg) (it0 it1 : Iteration (Vector Bool (maxInp msg))) (d0 d1 : ℕ → DaBit)
  (uninit0 uninit1 : ℕ → Bool) (s0 s1 : Vector (FreqShare (maxInp msg)) msg.numOfInputs.toNat)

theorem freqOp_reaches (hinputs : msg.numOfInputs.toNat = 0 ∨ maxInp msg < 2 ^ 32)
    (hbits : (freqPks s1.toList).card * maxInp msg < 2 ^ 32) :
    let pks := alignedPks it1 s1.toList
    let valid := freqValid it1 d0 d1 uninit1 msg.numOfInputs.toNat s0.toList s1.toList
    let allValid := freqVerdict it1 d0 d1 msg.numOfInputs.toNat s0.toList s1.toList
    Reaches (.start (freqOp msg it0 d0 uninit0 0 s0) (freqOp msg it1 d1 uninit1 1 s1))
      (.start
        (recvAccumulated msg.numOfInputs.toNat pks.length (maxInp msg) (convertedShares 0 d0 d1 pks s0.toList s1.toList)
            valid >>= fun freqs =>
          .ret { ret := if freqs.2.isSome then .ans else .invalid, allValid, valid, numValid := freqs.1, ans := freqs.2,
                 paritySent := [] })
        (sendAccumulated pks.length (maxInp msg) (convertedShares 1 d1 d0 pks s1.toList s0.toList) valid >>= fun _ =>
          .ret (freqOutcome1 it1 d0 d1 uninit1 msg.numOfInputs.toNat s0.toList s1.toList))) := by
  refine Reaches.bind (recvInputs_reaches hinputs) ?_
  refine Reaches.bind (freqShares_reaches it1 s0.toList s1.toList) ?_
  refine Reaches.bind (convert_reaches d0 d1 s0.toList s1.toList it1 hbits) ?_
  refine Reaches.bind (reaches_recvAs10 rfl) ?_
  refine Reaches.bind (reaches_recvAs10 rfl) ?_
  refine Reaches.bind (reaches_recvAs01 rfl) ?_
  simp only [length_entries it1, length_matched]
  refine Reaches.bind (check_reaches _ ?_ ?_ _) ?_
  · rw [List.length_map, List.length_range, length_matched]
  · rw [List.length_map, List.length_range, length_matched]
  · simp only [length_matched]
    exact Reaches.refl _

variable {s1}

theorem freqOp_terminates (hfits : CountersFit (freqRows msg) s1.toList) :
    Terminates (freqOp msg it0 d0 uninit0 0 s0) (freqOp msg it1 d1 uninit1 1 s1)
      (freqOutcome0 it1 d0 d1 uninit1 msg.numOfInputs.toNat s0.toList s1.toList)
      (freqOutcome1 it1 d0 d1 uninit1 msg.numOfInputs.toNat s0.toList s1.toList) := by
  have hphases := freqOp_reaches msg it0 it1 d0 d1 uninit0 uninit1 s0 s1 (Or.inr hfits.array) hfits.bits
  exact (hphases.trans (Reaches.bind (accumulated_reaches _ _ _ _ _ hfits.array) (Reaches.refl _))).terminates

theorem freqOp_hangs (hfits : ¬ CountersFit (freqRows msg) s1.toList) :
    Hangs (freqOp msg it0 d0 uninit0 0 s0) (freqOp msg it1 d1 uninit1 1 s1) := by
  by_cases hinputs : msg.numOfInputs.toNat = 0 ∨ maxInp msg < 2 ^ 32
  · by_cases hbits : (freqPks s1.toList).card * maxInp msg < 2 ^ 32
    · have harray : ¬ maxInp msg < 2 ^ 32 := fun h => hfits ((countersFit_freqRows msg).mpr ⟨h, hbits⟩)
      exact (freqOp_reaches msg it0 it1 d0 d1 uninit0 uninit1 s0 s1 hinputs hbits).hangs
        ((accumulated_hangs _ _ _ _ _ harray).bind _ _)
    · refine Reaches.bind_hangs (recvInputs_reaches hinputs) ?_
      refine Reaches.bind_hangs (freqShares_reaches it1 s0.toList s1.toList) ?_
      exact (convert_hangs d0 d1 s0.toList s1.toList it1 hbits).bind _ _
  · exact (recvInputs_hangs hinputs).bind _ _

end Phases

/-! ### The batch check -/

section BatchCheck

variable {size : ℕ} (it : Iteration (Vector Bool size)) {d0 d1 : ℕ → DaBit} {totalInputs : ℕ}
  (s0 s1 : List (FreqShare size))

theorem freqAllValid_iff (htotal : totalInputs < intModulus) (parity parityOther : Bool) (sum sumOther : ℤ) :
    freqAllValid totalInputs parity parityOther sum sumOther = true ↔
      RowOk totalInputs [parity] [parityOther] [sum] [sumOther] 0 :=
  allValidLoops_succ [parity] [parityOther] [sum] [sumOther] htotal 0

theorem cast_inputParity (shares : List Bool) (i : ℕ) :
    ((inputParity size shares i).toNat : ZMod 2) =
      ∑ k ∈ range size, ((shares.getD (i * size + k) false).toNat : ZMod 2) :=
  cast_xorLoop _ _

theorem cast_inputSum (sharesP : List ℤ) (i : ℕ) :
    ((inputSum size sharesP i : ℤ) : ZMod intModulus) =
      ∑ k ∈ range size, (sharesP.getD (i * size + k) 0 : ZMod intModulus) := cast_sumMod _ _

theorem cast_totalParity (numInputs : ℕ) (shares : List Bool) :
    ((totalParity numInputs size shares).toNat : ZMod 2) = bitTotal numInputs size (0, size) shares := by
  rw [← cast_rowParity, totalParity, rowParity]
  simp only [Nat.zero_add]

theorem cast_xorLoop_freqParity (pks : List Pk) :
    ((xorLoop pks.length fun i => (freqParity pks s0).getD i false).toNat : ZMod 2) =
      bitTotal pks.length size (0, size) (alignedShares pks s0) := by
  rw [cast_xorLoop, bitTotal]
  apply sum_congr rfl
  intro i hi
  rw [freqParity, getD_map_range, if_pos (mem_range.mp hi), cast_inputParity]
  simp only [Nat.zero_add]

theorem cast_sumMod_freqSums (serverNum : ℕ) (dThis dOther : ℕ → DaBit) (pks : List Pk)
    (sThis sOther : List (FreqShare size)) :
    ((sumMod intModulus pks.length fun i => (freqSums serverNum dThis dOther pks sThis sOther).getD i 0 : ℤ) :
        ZMod intModulus) =
      shareTotal pks.length size (0, size) (convertedShares serverNum dThis dOther pks sThis sOther) := by
  rw [cast_sumMod, shareTotal]
  apply sum_congr rfl
  intro i hi
  rw [freqSums, getD_map_range, if_pos (mem_range.mp hi), cast_inputSum]
  simp only [Nat.zero_add]

theorem freqVerdict_iff (hcorr : CorrelatedDaBits d0 d1) (htotal : totalInputs < intModulus) :
    freqVerdict it d0 d1 totalInputs s0 s1 = true ↔ RowBalanced totalInputs s0 s1 (0, size) := by
  rw [freqVerdict, freqAllValid_iff htotal]
  refine rowOk_aggregates_iff it hcorr totalInputs (fun _ => (Nat.zero_add size).le) ?_ ?_ ?_ ?_
  · exact cast_xorLoop_freqParity s0 _
  · exact cast_totalParity _ _
  · exact cast_sumMod_freqSums _ _ _ _ _ _
  · exact cast_sumMod_freqSums _ _ _ _ _ _

end BatchCheck

theorem freqOp_batchAgrees_iff (msg : InitMsg) (it0 it1 : Iteration (Vector Bool (maxInp msg))) {d0 d1 : ℕ → DaBit}
    (hcorr : CorrelatedDaBits d0 d1) (uninit0 uninit1 : ℕ → Bool)
    (s0 s1 : Vector (FreqShare (maxInp msg)) msg.numOfInputs.toNat) :
    ((∃ r0 r1, Terminates (freqOp msg it0 d0 uninit0 0 s0) (freqOp msg it1 d1 uninit1 1 s1) r0 r1) ↔
        CountersFit (freqRows msg) s1.toList) ∧
      ((∀ r0 r1, Terminates (freqOp msg it0 d0 uninit0 0 s0) (freqOp msg it1 d1 uninit1 1 s1) r0 r1 →
          BatchAgrees s0.toList s1.toList (freqRows msg) r0.allValid r0.valid r1.valid) ↔
        ¬ (CountersFit (freqRows msg) s1.toList ∧
          Cancels s0.toList s1.toList (freqRows msg) msg.numOfInputs.toNat)) := by
  refine ends_iff (freqOp_terminates msg it0 it1 d0 d1 uninit0 uninit1 s0)
    (freqOp_hangs msg it0 it1 d0 d1 uninit0 uninit1 s0) fun _ => ?_
  have hverdict : freqVerdict it1 d0 d1 msg.numOfInputs.toNat s0.toList s1.toList = true ↔
      ∃ row ∈ (freqRows msg).getLast?, RowBalanced msg.numOfInputs.toNat s0.toList s1.toList row := by
    rw [freqVerdict_iff it1 s0.toList s1.toList hcorr (numOfInputs_lt_intModulus _)]
    simp [freqRows]
  have hvalid : freqVerdict it1 d0 d1 msg.numOfInputs.toNat s0.toList s1.toList = true →
      freqValid it1 d0 d1 uninit1 msg.numOfInputs.toNat s0.toList s1.toList =
        List.replicate (freqPks s1.toList).card true := by
    intro htrue
    rw [freqValid, if_pos htrue, length_alignedPks_eq_card]
  exact batchAgrees_iff hverdict hvalid hvalid

/-! ### The single check -/

section SingleCheck

variable {size : ℕ} (it : Iteration (Vector Bool size)) {d0 d1 : ℕ → DaBit} (uninit : ℕ → Bool)
  (s0 s1 : List (FreqShare size))

/-- The parity of a server's own share of a key. -/
def ownParity (submissions : List (FreqShare size)) (pk : Pk) : Bool :=
  decide (#{k ∈ range size | (firstArr submissions pk).toList.getD k false} % 2 = 1)

theorem cast_ownParity (submissions : List (FreqShare size)) (pk : Pk) :
    ((ownParity submissions pk).toNat : ZMod 2) =
      ∑ k ∈ range size, (((firstArr submissions pk).toList.getD k false).toNat : ZMod 2) := by
  have hbit : ∀ n : ℕ, (decide (n % 2 = 1)).toNat = n % 2 := by
    intro n
    rcases Nat.mod_two_eq_zero_or_one n with h | h <;> simp [h]
  rw [ownParity, hbit, ZMod.natCast_mod, card_filter, Nat.cast_sum]
  apply sum_congr rfl
  intro k _
  cases (firstArr submissions pk).toList.getD k false <;> rfl

theorem singleValid_iff (valid parity parityOther : Bool) (sum sumOther : ℤ) :
    singleValid valid parity parityOther sum sumOther = true ↔
      valid = true ∧ (parity ^^ parityOther) = true ∧ (sum + sumOther) % (intModulus : ℤ) = 1 := by
  unfold singleValid
  cases valid <;> cases parity ^^ parityOther <;> simp

variable {s0 s1} {pks : List Pk} {i : ℕ}

theorem cast_parity_add (s0 s1 : List (FreqShare size)) (hi : i < pks.length) :
    (((freqParity pks s0).getD i false ^^ ownParity s1 pks[i]).toNat : ZMod 2) =
      (ones s0 s1 pks[i] 0 size : ℕ) := by
  rw [cast_toNat_xor, cast_ownParity, freqParity, getD_map_range, if_pos hi, cast_inputParity, ← sum_add_distrib,
    ones_eq_sum, Nat.cast_sum]
  apply sum_congr rfl
  intro k hk
  rw [getD_alignedShares s0 pks hi (mem_range.mp hk), Nat.zero_add, diffBit, cast_toNat_xor]

theorem cast_sums_add (hcorr : CorrelatedDaBits d0 d1) (hi : i < pks.length) :
    (((freqSums 0 d0 d1 pks s0 s1).getD i 0 + (freqSums 1 d1 d0 pks s1 s0).getD i 0 : ℤ) : ZMod intModulus) =
      (ones s0 s1 pks[i] 0 size : ℕ) := by
  have hadd := sum_convertedShares s0 s1 hcorr hi (Nat.zero_add size).le
  simp only [Nat.zero_add] at hadd
  rw [freqSums, freqSums, getD_map_range, getD_map_range, if_pos hi, if_pos hi, Int.cast_add, cast_inputSum,
    cast_inputSum, hadd]

theorem sums_eq_one_iff (hcorr : CorrelatedDaBits d0 d1) (hsize : size < intModulus) (hi : i < pks.length) :
    ((freqSums 0 d0 d1 pks s0 s1).getD i 0 + (freqSums 1 d1 d0 pks s1 s0).getD i 0) % (intModulus : ℤ) = 1 ↔
      ones s0 s1 pks[i] 0 size = 1 := by
  have hone : (1 : ℤ) % intModulus = 1 := by decide
  have hones : ones s0 s1 pks[i] 0 size < intModulus := (ones_le s0 s1 pks[i] 0 size).trans_lt hsize
  have hres := ZMod.natCast_eq_natCast_iff' (ones s0 s1 pks[i] 0 size) 1 intModulus
  rw [Nat.cast_one, Nat.mod_eq_of_lt hones, Nat.mod_eq_of_lt (by decide)] at hres
  have hmod := cast_eq_iff_emod (p := intModulus)
    ((freqSums 0 d0 d1 pks s0 s1).getD i 0 + (freqSums 1 d1 d0 pks s1 s0).getD i 0) 1
  rw [hone, cast_sums_add hcorr hi, Int.cast_one] at hmod
  exact hmod.symm.trans hres

theorem singleValid_exact_iff (hcorr : CorrelatedDaBits d0 d1) (hsize : size < intModulus) (hi : i < pks.length)
    (parityOther : Bool) :
    (singleValid ((matched pks s0).getD i false) ((freqParity pks s0).getD i false) parityOther
        ((freqSums 0 d0 d1 pks s0 s1).getD i 0) ((freqSums 1 d1 d0 pks s1 s0).getD i 0) = true ↔
          KeyOk s0 s1 [(0, size)] pks[i]) ↔
      (KeyOk s0 s1 [(0, size)] pks[i] → parityOther = ownParity s1 pks[i]) := by
  have hmatched : (matched pks s0).getD i false = true ↔ pks[i] ∈ freqPks s0 := by
    simp [matched, List.getD_eq_getElem?_getD, hi]
  have hkey : KeyOk s0 s1 [(0, size)] pks[i] ↔ pks[i] ∈ freqPks s0 ∧ ones s0 s1 pks[i] 0 size = 1 := by
    simp [KeyOk]
  rw [singleValid_iff, sums_eq_one_iff hcorr hsize hi, hmatched, hkey]
  by_cases hfine : pks[i] ∈ freqPks s0 ∧ ones s0 s1 pks[i] 0 size = 1
  · have hparity := cast_parity_add s0 s1 hi
    rw [hfine.2] at hparity
    have hxor : ((freqParity pks s0).getD i false ^^ ownParity s1 pks[i]) = true := by
      by_contra hfalse
      rw [Bool.not_eq_true] at hfalse
      rw [hfalse] at hparity
      exact absurd hparity (by decide)
    simp only [hfine, and_true, true_and, iff_true, forall_true_left]
    revert hxor
    cases (freqParity pks s0).getD i false <;> cases parityOther <;> cases ownParity s1 pks[i] <;> decide
  · refine iff_of_true (iff_of_false ?_ hfine) fun h => absurd h hfine
    exact fun h => hfine ⟨h.1, h.2.2⟩

theorem getD_freqSingle {i : ℕ} (hi : i < (alignedPks it s1).length) :
    (freqSingle it d0 d1 uninit s0 s1).getD i false =
      singleValid ((matched (alignedPks it s1) s0).getD i false) ((freqParity (alignedPks it s1) s0).getD i false)
        (uninit i) ((freqSums 0 d0 d1 (alignedPks it s1) s0 s1).getD i 0)
        ((freqSums 1 d1 d0 (alignedPks it s1) s1 s0).getD i 0) := by
  simp only [freqSingle, getD_map_range, if_pos hi]

end SingleCheck

theorem maxInp_lt_intModulus (msg : InitMsg) : maxInp msg < intModulus := by
  have hshift : msg.numBits.toUInt64.toNat % 64 ≤ 63 := by omega
  rw [maxInp, UInt64.toNat_shiftLeft, UInt64.toNat_one, Nat.one_shiftLeft]
  calc 2 ^ (msg.numBits.toUInt64.toNat % 64) % 2 ^ 64 ≤ 2 ^ (msg.numBits.toUInt64.toNat % 64) := Nat.mod_le _ _
    _ ≤ 2 ^ 63 := Nat.pow_le_pow_right (by decide) hshift
    _ < intModulus := by decide

section SingleCheckExact

variable (msg : InitMsg) (it0 it1 : Iteration (Vector Bool (maxInp msg))) (d0 d1 : ℕ → DaBit)
  (uninit0 uninit1 : ℕ → Bool) (s0 s1 : Vector (FreqShare (maxInp msg)) msg.numOfInputs.toNat)

/-- The batch check fails, and both servers end with the same `valid` array, which is the right one. -/
def SingleCheckExact : Prop :=
  ∃ r0 r1, Terminates (freqOp msg it0 d0 uninit0 0 s0) (freqOp msg it1 d1 uninit1 1 s1) r0 r1 ∧
    r0.allValid = false ∧ r1.valid = r0.valid ∧ r0.valid.length = (alignedPks it1 s1.toList).length ∧
    ∀ (i : ℕ) (hi : i < (alignedPks it1 s1.toList).length), r0.valid.getD i false = true ↔
      KeyOk s0.toList s1.toList (freqRows msg) (alignedPks it1 s1.toList)[i]

/-- Server 1 sends the parities of its own shares. -/
def SendsParities : Prop :=
  ∃ r0 r1, Terminates (freqOp msg it0 d0 uninit0 0 s0) (freqOp msg it1 d1 uninit1 1 s1) r0 r1 ∧
    r1.paritySent = (alignedPks it1 s1.toList).map (ownParity s1.toList)

variable {d0 d1}

/-- The verdicts are exact exactly when the buffer of server 1 holds the parities of the inputs that are fine, and
server 1 sends its parities exactly when the buffer holds all of them. -/
theorem singleCheck_exact_iff (hcorr : CorrelatedDaBits d0 d1)
    (hfail : ¬ RowBalanced msg.numOfInputs.toNat s0.toList s1.toList (0, maxInp msg)) :
    (SingleCheckExact msg it0 it1 d0 d1 uninit0 uninit1 s0 s1 ↔
      CountersFit (freqRows msg) s1.toList ∧ ∀ (i : ℕ) (hi : i < (alignedPks it1 s1.toList).length),
        KeyOk s0.toList s1.toList (freqRows msg) (alignedPks it1 s1.toList)[i] →
          uninit1 i = ownParity s1.toList (alignedPks it1 s1.toList)[i]) ∧
    (SendsParities msg it0 it1 d0 d1 uninit0 uninit1 s0 s1 ↔
      CountersFit (freqRows msg) s1.toList ∧ ∀ (i : ℕ) (hi : i < (alignedPks it1 s1.toList).length),
        uninit1 i = ownParity s1.toList (alignedPks it1 s1.toList)[i]) := by
  by_cases hfits : CountersFit (freqRows msg) s1.toList
  · have hterm := freqOp_terminates msg it0 it1 d0 d1 uninit0 uninit1 s0 hfits
    have hverdict : freqVerdict it1 d0 d1 msg.numOfInputs.toNat s0.toList s1.toList = false := by
      rw [← Bool.not_eq_true, freqVerdict_iff it1 s0.toList s1.toList hcorr (numOfInputs_lt_intModulus _)]
      exact hfail
    rw [SingleCheckExact, SendsParities, hterm.exists_iff, hterm.exists_iff, and_iff_right hfits, and_iff_right hfits]
    simp only [freqOutcome0, freqOutcome1, freqValid, hverdict, Bool.false_eq_true, if_false, true_and]
    constructor
    · rw [and_iff_right (show (freqSingle it1 d0 d1 uninit1 s0.toList s1.toList).length = _ by simp [freqSingle])]
      refine forall₂_congr fun i hi => ?_
      rw [getD_freqSingle it1 uninit1 hi]
      exact singleValid_exact_iff hcorr (maxInp_lt_intModulus msg) hi _
    · constructor
      · intro hsent i hi
        have hget := congrArg (fun l => l[i]?) hsent
        simpa [hi] using hget
      · intro hbuffer
        apply List.ext_getElem
        · simp
        · intro i hi _
          simp only [List.getElem_map, List.getElem_range]
          exact hbuffer i _
  · have hhangs := freqOp_hangs msg it0 it1 d0 d1 uninit0 uninit1 s0 hfits
    exact ⟨iff_of_false hhangs.not_exists fun h => hfits h.1, iff_of_false hhangs.not_exists fun h => hfits h.1⟩

end SingleCheckExact

/-- Two submissions of one value. -/
def repeatMsg : InitMsg := { numBits := 0, numOfInputs := 2, maxInp := 1 }

section Repeat

theorem not_rowBalanced_repeat :
    ¬ RowBalanced repeatMsg.numOfInputs.toNat (flood (maxInp repeatMsg) repeatMsg.numOfInputs.toNat true).toList
      (flood (maxInp repeatMsg) repeatMsg.numOfInputs.toNat false).toList (0, maxInp repeatMsg) := by
  rintro ⟨hparity, -⟩
  rw [totalOnes_flood (by decide) (by decide)] at hparity
  exact absurd hparity (by decide)

variable {size n : ℕ} (hn : 0 < n)
include hn

theorem ownParity_flood : ownParity (flood size n false).toList (Vector.replicate 32 0) = false := by
  have hzero : ∀ k, (firstArr (flood size n false).toList (Vector.replicate 32 0)).toList.getD k false = false := by
    intro k
    rw [firstArr_flood hn]
    by_cases hk : k < size <;> simp [List.getD_eq_getElem?_getD, hk]
  rw [ownParity]
  simp only [hzero]
  simp

theorem alignedPks_flood (it : Iteration (Vector Bool size)) (b : Bool) {i : ℕ}
    (hi : i < (alignedPks it (flood size n b).toList).length) :
    (alignedPks it (flood size n b).toList)[i] = Vector.replicate 32 0 := by
  have hmem := (mem_alignedPks it (flood size n b).toList _).mp (List.getElem_mem hi)
  rw [freqPks_flood hn, mem_singleton] at hmem
  exact hmem

end Repeat

theorem countersFit_repeat :
    CountersFit (freqRows repeatMsg) (flood (maxInp repeatMsg) repeatMsg.numOfInputs.toNat false).toList := by
  refine (countersFit_freqRows repeatMsg).mpr ⟨by decide, ?_⟩
  rw [freqPks_flood (by decide), card_singleton]
  decide

theorem singleCheck_exact_iff_repeat :
    SingleCheckExact repeatMsg default default zeroDaBits zeroDaBits (fun _ => false) (fun _ => false)
      (flood _ _ true) (flood _ _ false) := by
  refine (singleCheck_exact_iff repeatMsg default default _ _ _ _ correlatedDaBits_zero
    not_rowBalanced_repeat).1.mpr ⟨countersFit_repeat, fun i hi _ => ?_⟩
  rw [alignedPks_flood (by decide) default false hi, ownParity_flood (by decide)]

/-- With ones in the buffer the valid key is rejected. -/
theorem not_singleCheck_exact :
    ¬ SingleCheckExact repeatMsg default default zeroDaBits zeroDaBits (fun _ => false) (fun _ => true)
      (flood _ _ true) (flood _ _ false) := by
  rintro ⟨r0, r1, hterm, hfail, -, -, hvalid⟩
  obtain ⟨rfl, rfl⟩ := hterm.unique (freqOp_terminates repeatMsg default default _ _ _ _ _ countersFit_repeat)
  have hpos : 0 < repeatMsg.numOfInputs.toNat := by decide
  have hi : 0 < (alignedPks default (flood (maxInp repeatMsg) repeatMsg.numOfInputs.toNat false).toList).length := by
    rw [length_alignedPks_eq_card, freqPks_flood hpos, card_singleton]
    exact Nat.one_pos
  have hkey : KeyOk (flood (maxInp repeatMsg) repeatMsg.numOfInputs.toNat true).toList
      (flood (maxInp repeatMsg) repeatMsg.numOfInputs.toNat false).toList (freqRows repeatMsg)
      (Vector.replicate 32 0) := (keyOk_flood_iff hpos (by decide)).mpr (by decide)
  rw [← alignedPks_flood hpos default false hi] at hkey
  have hverdict := hvalid 0 hi
  simp only [freqOutcome0, freqValid] at hfail hverdict
  rw [hfail, if_neg Bool.false_ne_true, getD_freqSingle default _ hi] at hverdict
  have hbuffer :=
    (singleValid_exact_iff correlatedDaBits_zero (maxInp_lt_intModulus repeatMsg) hi true).mp hverdict hkey
  rw [alignedPks_flood hpos default false hi, ownParity_flood hpos] at hbuffer
  exact Bool.true_eq_false_eq_False hbuffer

end PrioPlus
