import PrioPlus.Server.Freq
import PrioPlus.Server.HeavyQuery

/-!
# `countMin_op` and `heavy_op`

Both operations run the batch check on the rows of their tables, mark all inputs valid or none, and query the combined
table. The batch check sees the last row only (`sketchVerdict_iff`), so what it accepts is what the test of one input
accepts exactly as far as the errors of several inputs do not cancel in that row (`fastPath_agrees_iff`). For honest
clients every row is balanced, and every heavy value is reported (`heavyOp_complete`).
-/

namespace PrioPlus

open Finset Lib.TwoParty

/-- The rows of `countMin_op`, as start and length. -/
def countMinRows (cfg : HeavyConfig) : List (ℕ × ℕ) := (List.range cfg.d).map fun j => (j * cfg.w, cfg.w)

/-- The rows of `heavy_op`: the layers, and the frequency layer at the end. -/
def heavyRows (numBits : UInt32) (cfg : HeavyConfig) : List (ℕ × ℕ) :=
  (List.range (cfg.L * cfg.d)).map (fun j => (j * cfg.w, cfg.w)) ++
    [(cfg.L * cfg.d * cfg.w, firstSize numBits cfg.L)]

/-- The loops of the batch check, for their end only: over the rows, and over each row where there is an input. -/
def checkLoops (numInputs : ℕ) (rows : List (ℕ × ℕ)) : Server Unit :=
  if rows.length < 2 ^ 32 ∧ (0 < numInputs → ∀ row ∈ rows, row.2 < 2 ^ 32) then .ret () else .loop

/-- What the two operations have in common, from their rows, their verdict and their query. The arrays of parities and
sums have one entry for each row. -/
def sketchOp {size : ℕ} (rows : List (ℕ × ℕ)) (verdict : List Bool → List Bool → List ℤ → List ℤ → Bool)
    (query : ℕ → List ℤ → List UInt64) (it : Iteration (Vector Bool size)) (dabits : ℕ → DaBit)
    (totalInputs serverNum : ℕ) (submissions : List (FreqShare size)) : Server (TableResult (List UInt64)) :=
  let shareMap := freqShareMap submissions
  if serverNum = 1 then do
    recvInputs totalInputs size
    let shares ← sendFreqShares it shareMap
    let numInputs := shareMap.entries.length
    let sharesP ← b2aDaBitSingle serverNum dabits shares
    checkLoops numInputs rows
    sendMsg (.boolBatch (rows.map fun row => rowParity numInputs size row.1 row.2 shares))
    sendMsg (.fmpzBatch (rows.map fun row => rowSum numInputs size row.1 row.2 sharesP))
    let allValid ← recvBool
    let valid := List.replicate numInputs allValid
    sendAccumulated numInputs size sharesP valid
    return { ret := .noAns, allValid, valid, numValid := 0, ans := none }
  else do
    recvInputs totalInputs size
    let aligned ← recvFreqShares shareMap
    let numInputs := aligned.1.length
    let sharesP ← b2aDaBitSingle serverNum dabits aligned.2
    checkLoops numInputs rows
    let parity := rows.map fun row => rowParity numInputs size row.1 row.2 aligned.2
    let sums := rows.map fun row => rowSum numInputs size row.1 row.2 sharesP
    let parityOther ← recvBoolBatch rows.length
    let sumsOther ← recvFmpzBatch rows.length
    let allValid := verdict parity parityOther sums sumsOther
    sendMsg (.bool allValid)
    let valid := List.replicate numInputs allValid
    let table ← recvAccumulated totalInputs numInputs size sharesP valid
    return { ret := if table.2.isSome then .ans else .invalid, allValid, valid, numValid := table.1,
             ans := table.2.map (query numInputs) }

def countMinOp (seed : HashSeed) (cfg : HeavyConfig) (msg : InitMsg) (it : Iteration (Vector Bool (cfg.d * cfg.w)))
    (dabits : ℕ → DaBit) (serverNum : ℕ)
    (submissions : Vector (FreqShare (cfg.d * cfg.w)) msg.numOfInputs.toNat) : Server (TableResult (List UInt64)) :=
  sketchOp (countMinRows cfg) (countMinAllValid cfg.d msg.numOfInputs.toNat) (countMinQuery seed msg.numBits cfg) it
    dabits msg.numOfInputs.toNat serverNum submissions.toList

def heavyOp (seed : HashSeed) (cfg : HeavyConfig) (msg : InitMsg)
    (it : Iteration (Vector Bool (shareSize msg.numBits cfg))) (dabits : ℕ → DaBit) (serverNum : ℕ)
    (submissions : Vector (FreqShare (shareSize msg.numBits cfg)) msg.numOfInputs.toNat) :
    Server (TableResult (List UInt64)) :=
  sketchOp (heavyRows msg.numBits cfg) (heavyAllValid cfg.L cfg.d msg.numOfInputs.toNat)
    (heavyQuery seed msg.numBits cfg) it dabits msg.numOfInputs.toNat serverNum submissions.toList

/-! ### The run -/

section Run

variable {size : ℕ} (rows : List (ℕ × ℕ)) (verdict : List Bool → List Bool → List ℤ → List ℤ → Bool)
  (query : ℕ → List ℤ → List UInt64) (it0 it : Iteration (Vector Bool size)) (d0 d1 : ℕ → DaBit)
  (totalInputs : ℕ) (s0 s1 : List (FreqShare size))

/-- `parity` of a server. -/
def sketchParity (pks : List Pk) (submissions : List (FreqShare size)) : List Bool :=
  rows.map fun row => rowParity pks.length size row.1 row.2 (alignedShares pks submissions)

/-- `sums` of a server. -/
def sketchSums (serverNum : ℕ) (dThis dOther : ℕ → DaBit) (pks : List Pk) (sThis sOther : List (FreqShare size)) :
    List ℤ :=
  rows.map fun row => rowSum pks.length size row.1 row.2 (convertedShares serverNum dThis dOther pks sThis sOther)

/-- `all_valid`. -/
def sketchVerdict : Bool :=
  let pks := alignedPks it s1
  verdict (sketchParity rows pks s0) (sketchParity rows pks s1) (sketchSums rows 0 d0 d1 pks s0 s1)
    (sketchSums rows 1 d1 d0 pks s1 s0)

/-- The final `valid` array. -/
def sketchValid : List Bool :=
  List.replicate (alignedPks it s1).length (sketchVerdict rows verdict it d0 d1 s0 s1)

/-- The count and the combined table of server 0. -/
def sketchTable : ℕ × Option (List ℤ) :=
  let pks := alignedPks it s1
  accumulatedOutcome totalInputs pks.length size (convertedShares 0 d0 d1 pks s0 s1)
    (convertedShares 1 d1 d0 pks s1 s0) (sketchValid rows verdict it d0 d1 s0 s1)

/-- Server 0's result. -/
def sketchOutcome0 : TableResult (List UInt64) :=
  let table := sketchTable rows verdict it d0 d1 totalInputs s0 s1
  { ret := if table.2.isSome then .ans else .invalid, allValid := sketchVerdict rows verdict it d0 d1 s0 s1,
    valid := sketchValid rows verdict it d0 d1 s0 s1, numValid := table.1,
    ans := table.2.map (query (alignedPks it s1).length) }

/-- Server 1's result. -/
def sketchOutcome1 : TableResult (List UInt64) :=
  { ret := .noAns, allValid := sketchVerdict rows verdict it d0 d1 s0 s1,
    valid := sketchValid rows verdict it d0 d1 s0 s1, numValid := 0, ans := none }

theorem checkLoops_reaches {s1 : List (FreqShare size)} (hrows : rows.length < 2 ^ 32)
    (hwidths : (freqPks s1).Nonempty → ∀ row ∈ rows, row.2 < 2 ^ 32) :
    Reaches (.start (checkLoops (alignedPks it s1).length rows) (checkLoops (alignedPks it s1).length rows))
      (.done () ()) := by
  rw [length_alignedPks_eq_card, checkLoops, if_pos ⟨hrows, fun hpos => hwidths (card_pos.mp hpos)⟩]
  exact Reaches.refl _

theorem checkLoops_hangs {s1 : List (FreqShare size)}
    (hrows : ¬ (rows.length < 2 ^ 32 ∧ ((freqPks s1).Nonempty → ∀ row ∈ rows, row.2 < 2 ^ 32))) :
    Hangs (checkLoops (alignedPks it s1).length rows) (checkLoops (alignedPks it s1).length rows) := by
  rw [length_alignedPks_eq_card, checkLoops, if_neg fun h => hrows ⟨h.1, fun hne => h.2 (card_pos.mpr hne)⟩]
  exact hangs_loop

theorem sketchOp_reaches (hinputs : totalInputs = 0 ∨ size < 2 ^ 32) (hbits : (freqPks s1).card * size < 2 ^ 32)
    (hrows : rows.length < 2 ^ 32) (hwidths : (freqPks s1).Nonempty → ∀ row ∈ rows, row.2 < 2 ^ 32) :
    let pks := alignedPks it s1
    let valid := sketchValid rows verdict it d0 d1 s0 s1
    let allValid := sketchVerdict rows verdict it d0 d1 s0 s1
    Reaches
      (.start (sketchOp rows verdict query it0 d0 totalInputs 0 s0) (sketchOp rows verdict query it d1 totalInputs 1 s1))
      (.start
        (recvAccumulated totalInputs pks.length size (convertedShares 0 d0 d1 pks s0 s1) valid >>= fun table =>
          .ret { ret := if table.2.isSome then .ans else .invalid, allValid, valid, numValid := table.1,
                 ans := table.2.map (query pks.length) })
        (sendAccumulated pks.length size (convertedShares 1 d1 d0 pks s1 s0) valid >>= fun _ =>
          .ret (sketchOutcome1 rows verdict it d0 d1 s0 s1))) := by
  refine Reaches.bind (recvInputs_reaches hinputs) ?_
  refine Reaches.bind (freqShares_reaches it s0 s1) ?_
  refine Reaches.bind (convert_reaches d0 d1 s0 s1 it hbits) ?_
  simp only [length_entries it, length_matched]
  refine Reaches.bind (checkLoops_reaches rows it hrows hwidths) ?_
  refine Reaches.bind (reaches_recvAs10 (if_pos (List.length_map _))) ?_
  refine Reaches.bind (reaches_recvAs10 (if_pos (List.length_map _))) ?_
  exact Reaches.bind (reaches_recvAs01 rfl) (Reaches.refl _)

variable {rows s1}

theorem sketchOp_terminates (hfits : CountersFit rows s1) :
    Terminates (sketchOp rows verdict query it0 d0 totalInputs 0 s0) (sketchOp rows verdict query it d1 totalInputs 1 s1)
      (sketchOutcome0 rows verdict query it d0 d1 totalInputs s0 s1)
      (sketchOutcome1 rows verdict it d0 d1 s0 s1) := by
  have hphases := sketchOp_reaches rows verdict query it0 it d0 d1 totalInputs s0 s1 (Or.inr hfits.array) hfits.bits
    hfits.rows hfits.widths
  exact (hphases.trans (Reaches.bind (accumulated_reaches _ _ _ _ _ hfits.array) (Reaches.refl _))).terminates

theorem sketchOp_hangs (hfits : ¬ CountersFit rows s1) :
    Hangs (sketchOp rows verdict query it0 d0 totalInputs 0 s0) (sketchOp rows verdict query it d1 totalInputs 1 s1) := by
  by_cases hinputs : totalInputs = 0 ∨ size < 2 ^ 32
  · by_cases hbits : (freqPks s1).card * size < 2 ^ 32
    · by_cases hrows : rows.length < 2 ^ 32 ∧ ((freqPks s1).Nonempty → ∀ row ∈ rows, row.2 < 2 ^ 32)
      · have harray : ¬ size < 2 ^ 32 := fun h => hfits ⟨h, hbits, hrows.2, hrows.1⟩
        exact (sketchOp_reaches rows verdict query it0 it d0 d1 totalInputs s0 s1 hinputs hbits hrows.1 hrows.2).hangs
          ((accumulated_hangs _ _ _ _ _ harray).bind _ _)
      · refine Reaches.bind_hangs (recvInputs_reaches hinputs) ?_
        refine Reaches.bind_hangs (freqShares_reaches it s0 s1) ?_
        refine Reaches.bind_hangs (convert_reaches d0 d1 s0 s1 it hbits) ?_
        simp only [length_entries it, length_matched]
        exact (checkLoops_hangs rows it hrows).bind _ _
    · refine Reaches.bind_hangs (recvInputs_reaches hinputs) ?_
      refine Reaches.bind_hangs (freqShares_reaches it s0 s1) ?_
      exact (convert_hangs d0 d1 s0 s1 it hbits).bind _ _
  · exact (recvInputs_hangs hinputs).bind _ _

variable (s1)

variable {verdict d0 d1 totalInputs}

theorem sketchVerdict_iff (hcorr : CorrelatedDaBits d0 d1) (htotal : totalInputs < intModulus)
    (hverdict : verdict = allValidLoops rows.length totalInputs)
    (hrows : (freqPks s1).Nonempty → ∀ row ∈ rows.getLast?, row.1 + row.2 ≤ size) :
    sketchVerdict rows verdict it d0 d1 s0 s1 = true ↔ ∃ row ∈ rows.getLast?, RowBalanced totalInputs s0 s1 row := by
  rw [sketchVerdict, hverdict, allValidLoops_eq_true_iff _ _ _ _ htotal]
  rw [List.getLast?_eq_getElem?] at hrows ⊢
  rcases Nat.eq_zero_or_pos rows.length with hzero | hpos
  · simp [List.length_eq_zero_iff.mp hzero]
  · have hlast : rows.length - 1 < rows.length := Nat.sub_lt hpos Nat.one_pos
    simp only [List.getElem?_eq_getElem hlast, Option.mem_some_iff, forall_eq', exists_eq_left'] at hrows ⊢
    rw [and_iff_right hpos]
    refine rowOk_aggregates_iff it hcorr totalInputs hrows ?_ ?_ ?_ ?_
    all_goals
      simp only [sketchParity, sketchSums, List.getD_eq_getElem?_getD, List.getElem?_map,
        List.getElem?_eq_getElem hlast, Option.map_some, Option.getD_some, cast_rowParity, cast_rowSum]

theorem sketchOp_batchAgrees_iff (hcorr : CorrelatedDaBits d0 d1) (htotal : totalInputs < intModulus)
    (hverdict : verdict = allValidLoops rows.length totalInputs)
    (hrows : CountersFit rows s1 → (freqPks s1).Nonempty → ∀ row ∈ rows.getLast?, row.1 + row.2 ≤ size) :
    ((∃ r0 r1, Terminates (sketchOp rows verdict query it0 d0 totalInputs 0 s0)
        (sketchOp rows verdict query it d1 totalInputs 1 s1) r0 r1) ↔ CountersFit rows s1) ∧
      ((∀ r0 r1, Terminates (sketchOp rows verdict query it0 d0 totalInputs 0 s0)
          (sketchOp rows verdict query it d1 totalInputs 1 s1) r0 r1 →
          BatchAgrees s0 s1 rows r0.allValid r0.valid r1.valid) ↔
        ¬ (CountersFit rows s1 ∧ Cancels s0 s1 rows totalInputs)) := by
  refine ends_iff (sketchOp_terminates verdict query it0 it d0 d1 totalInputs s0)
    (sketchOp_hangs verdict query it0 it d0 d1 totalInputs s0) fun hfits => ?_
  have hvalid : sketchVerdict rows verdict it d0 d1 s0 s1 = true →
      sketchValid rows verdict it d0 d1 s0 s1 = List.replicate (freqPks s1).card true := by
    intro htrue
    rw [sketchValid, htrue, length_alignedPks_eq_card]
  exact batchAgrees_iff (sketchVerdict_iff it s0 s1 hcorr htotal hverdict (hrows hfits)) hvalid hvalid

end Run

/-! ### The fast path -/

theorem length_countMinRows (cfg : HeavyConfig) : (countMinRows cfg).length = cfg.d := by simp [countMinRows]

theorem length_heavyRows (numBits : UInt32) (cfg : HeavyConfig) :
    (heavyRows numBits cfg).length = cfg.L * cfg.d + 1 := by simp [heavyRows]

theorem countMinRows_last (cfg : HeavyConfig) : ∀ row ∈ (countMinRows cfg).getLast?, row.1 + row.2 ≤ cfg.d * cfg.w := by
  intro row hrow
  obtain ⟨j, hj, rfl⟩ := List.mem_map.mp (List.mem_of_getLast? hrow)
  have hblock := Nat.mul_le_mul_right cfg.w (Nat.succ_le_of_lt (List.mem_range.mp hj))
  rw [Nat.succ_mul] at hblock
  exact hblock

theorem heavyRows_getLast? (numBits : UInt32) (cfg : HeavyConfig) :
    (heavyRows numBits cfg).getLast? = some (cfg.L * cfg.d * cfg.w, firstSize numBits cfg.L) := by
  simp [heavyRows]

/-- With a key in a batch that the counters get through, `share_size` does not wrap. -/
theorem shareSize_of_countersFit {numBits : UInt32} {cfg : HeavyConfig}
    {submissions1 : List (FreqShare (shareSize numBits cfg))} (h : CountersFit (heavyRows numBits cfg) submissions1)
    (hne : (freqPks submissions1).Nonempty) : shareSize numBits cfg = tableCells numBits cfg := by
  have hlayers : cfg.L * cfg.d + 1 < 2 ^ 32 := length_heavyRows numBits cfg ▸ h.rows
  have hfirst : firstSize numBits cfg.L < 2 ^ 32 := h.widths hne _ (List.mem_append_right _ (List.mem_singleton_self _))
  have hcells : cfg.L * cfg.d * cfg.w ≤ (2 ^ 32 - 1) * (2 ^ 32 - 1) := by
    rcases Nat.eq_zero_or_pos (cfg.L * cfg.d) with hzero | hpos
    · rw [hzero, Nat.zero_mul]
      exact Nat.zero_le _
    · have hrow : (0 * cfg.w, cfg.w) ∈ heavyRows numBits cfg :=
        List.mem_append_left _ (List.mem_map.mpr ⟨0, List.mem_range.mpr hpos, rfl⟩)
      have hw : cfg.w < 2 ^ 32 := h.widths hne _ hrow
      exact Nat.mul_le_mul (by omega) (by omega)
  rw [shareSize_eq_mod, tableCells]
  exact Nat.mod_eq_of_lt (by omega)

theorem heavyRows_last {numBits : UInt32} {cfg : HeavyConfig}
    {submissions1 : List (FreqShare (shareSize numBits cfg))} (h : CountersFit (heavyRows numBits cfg) submissions1)
    (hne : (freqPks submissions1).Nonempty) :
    ∀ row ∈ (heavyRows numBits cfg).getLast?, row.1 + row.2 ≤ shareSize numBits cfg := by
  intro row hrow
  rw [heavyRows_getLast?] at hrow
  obtain rfl := Option.mem_some_iff.mp hrow
  exact (shareSize_of_countersFit h hne).ge

/-- All three operations end exactly when the counters get through. Then the batch check accepts only what the test of
one input accepts, exactly as far as the errors of several inputs do not cancel in the row that decides. -/
theorem fastPath_agrees_iff {d0 d1 : ℕ → DaBit} (hcorr : CorrelatedDaBits d0 d1) (msg : InitMsg) :
    (∀ (it0 it1 : Iteration (Vector Bool (maxInp msg))) (uninit0 uninit1 : ℕ → Bool)
        (s0 s1 : Vector (FreqShare (maxInp msg)) msg.numOfInputs.toNat),
      ((∃ r0 r1, Terminates (freqOp msg it0 d0 uninit0 0 s0) (freqOp msg it1 d1 uninit1 1 s1) r0 r1) ↔
          CountersFit (freqRows msg) s1.toList) ∧
        ((∀ r0 r1, Terminates (freqOp msg it0 d0 uninit0 0 s0) (freqOp msg it1 d1 uninit1 1 s1) r0 r1 →
            BatchAgrees s0.toList s1.toList (freqRows msg) r0.allValid r0.valid r1.valid) ↔
          ¬ (CountersFit (freqRows msg) s1.toList ∧
            Cancels s0.toList s1.toList (freqRows msg) msg.numOfInputs.toNat))) ∧
    (∀ (seed : HashSeed) (cfg : HeavyConfig) (it0 it1 : Iteration (Vector Bool (cfg.d * cfg.w)))
        (s0 s1 : Vector (FreqShare (cfg.d * cfg.w)) msg.numOfInputs.toNat),
      ((∃ r0 r1, Terminates (countMinOp seed cfg msg it0 d0 0 s0) (countMinOp seed cfg msg it1 d1 1 s1) r0 r1) ↔
          CountersFit (countMinRows cfg) s1.toList) ∧
        ((∀ r0 r1, Terminates (countMinOp seed cfg msg it0 d0 0 s0) (countMinOp seed cfg msg it1 d1 1 s1) r0 r1 →
            BatchAgrees s0.toList s1.toList (countMinRows cfg) r0.allValid r0.valid r1.valid) ↔
          ¬ (CountersFit (countMinRows cfg) s1.toList ∧
            Cancels s0.toList s1.toList (countMinRows cfg) msg.numOfInputs.toNat))) ∧
    ∀ (seed : HashSeed) (cfg : HeavyConfig) (it0 it1 : Iteration (Vector Bool (shareSize msg.numBits cfg)))
        (s0 s1 : Vector (FreqShare (shareSize msg.numBits cfg)) msg.numOfInputs.toNat),
      ((∃ r0 r1, Terminates (heavyOp seed cfg msg it0 d0 0 s0) (heavyOp seed cfg msg it1 d1 1 s1) r0 r1) ↔
          CountersFit (heavyRows msg.numBits cfg) s1.toList) ∧
        ((∀ r0 r1, Terminates (heavyOp seed cfg msg it0 d0 0 s0) (heavyOp seed cfg msg it1 d1 1 s1) r0 r1 →
            BatchAgrees s0.toList s1.toList (heavyRows msg.numBits cfg) r0.allValid r0.valid r1.valid) ↔
          ¬ (CountersFit (heavyRows msg.numBits cfg) s1.toList ∧
            Cancels s0.toList s1.toList (heavyRows msg.numBits cfg) msg.numOfInputs.toNat)) := by
  have htotal := numOfInputs_lt_intModulus msg.numOfInputs
  refine ⟨fun it0 it1 uninit0 uninit1 s0 s1 => ?_, fun seed cfg it0 it1 s0 s1 => ?_, fun seed cfg it0 it1 s0 s1 => ?_⟩
  · exact freqOp_batchAgrees_iff msg it0 it1 hcorr uninit0 uninit1 s0 s1
  · refine sketchOp_batchAgrees_iff _ it0 it1 s0.toList s1.toList hcorr htotal ?_ fun _ _ => countMinRows_last cfg
    rw [length_countMinRows]
    rfl
  · refine sketchOp_batchAgrees_iff _ it0 it1 s0.toList s1.toList hcorr htotal ?_ heavyRows_last
    rw [length_heavyRows]
    rfl

/-- A message for one submission of one value. -/
def singleMsg : InitMsg := { numBits := 0, numOfInputs := 1, maxInp := 1 }

theorem fastPath_agrees_iff_singleMsg :
    (∃ r0 r1, Terminates (freqOp singleMsg default zeroDaBits (fun _ => false) 0 (flood _ _ true))
        (freqOp singleMsg default zeroDaBits (fun _ => false) 1 (flood _ _ false)) r0 r1) ∧
    ∀ r0 r1, Terminates (freqOp singleMsg default zeroDaBits (fun _ => false) 0 (flood _ _ true))
        (freqOp singleMsg default zeroDaBits (fun _ => false) 1 (flood _ _ false)) r0 r1 →
      BatchAgrees (flood (maxInp singleMsg) 1 true).toList (flood (maxInp singleMsg) 1 false).toList (freqRows singleMsg)
        r0.allValid r0.valid r1.valid := by
  obtain ⟨hends, hagrees⟩ := (fastPath_agrees_iff correlatedDaBits_zero singleMsg).1 default default (fun _ => false)
    (fun _ => false) (flood _ _ true) (flood _ _ false)
  refine ⟨hends.mpr ?_, hagrees.mpr fun h => not_cancels_flood (by decide) (by decide) (by decide) h.2⟩
  exact countersFit_flood one_pos (by decide) (by decide) (by decide)

/-- Two submissions, of two values each. -/
def floodMsg : InitMsg := { numBits := 1, numOfInputs := 2, maxInp := 2 }

/-- One row of two buckets, no layer. -/
def floodConfig : HeavyConfig := { t := 0, w := 2, d := 1, L := 0 }

/-- One key with two ones passes for two submissions with a one each, in all three operations. -/
theorem not_fastPath_agrees :
    ¬ (∀ r0 r1, Terminates (freqOp floodMsg default zeroDaBits (fun _ => false) 0 (flood _ _ true))
          (freqOp floodMsg default zeroDaBits (fun _ => false) 1 (flood _ _ false)) r0 r1 →
        BatchAgrees (flood (maxInp floodMsg) 2 true).toList (flood (maxInp floodMsg) 2 false).toList (freqRows floodMsg)
          r0.allValid r0.valid r1.valid) ∧
    ¬ (∀ r0 r1, Terminates (countMinOp { draw := 0 } floodConfig floodMsg default zeroDaBits 0 (flood _ _ true))
          (countMinOp { draw := 0 } floodConfig floodMsg default zeroDaBits 1 (flood _ _ false)) r0 r1 →
        BatchAgrees (flood (floodConfig.d * floodConfig.w) 2 true).toList
          (flood (floodConfig.d * floodConfig.w) 2 false).toList (countMinRows floodConfig)
          r0.allValid r0.valid r1.valid) ∧
    ¬ (∀ r0 r1, Terminates (heavyOp { draw := 0 } floodConfig floodMsg default zeroDaBits 0 (flood _ _ true))
          (heavyOp { draw := 0 } floodConfig floodMsg default zeroDaBits 1 (flood _ _ false)) r0 r1 →
        BatchAgrees (flood (shareSize floodMsg.numBits floodConfig) 2 true).toList
          (flood (shareSize floodMsg.numBits floodConfig) 2 false).toList (heavyRows floodMsg.numBits floodConfig)
          r0.allValid r0.valid r1.valid) := by
  have htotal : 2 < intModulus := by decide
  refine ⟨fun h => ?_, fun h => ?_, fun h => ?_⟩
  · refine (freqOp_batchAgrees_iff floodMsg default default correlatedDaBits_zero _ _ _ _).2.mp h ⟨?_, ?_⟩
    · exact countersFit_flood two_pos (by decide) (by decide) (by decide)
    · exact cancels_flood (by decide) (by decide) (by decide)
  · refine (sketchOp_batchAgrees_iff _ default default _ _ correlatedDaBits_zero htotal rfl
      fun _ _ => countMinRows_last floodConfig).2.mp h ⟨?_, ?_⟩
    · exact countersFit_flood two_pos (by decide) (by decide) (by decide)
    · exact cancels_flood (by decide) (by decide) (by decide)
  · refine (sketchOp_batchAgrees_iff _ default default _ _ correlatedDaBits_zero htotal rfl
      heavyRows_last).2.mp h ⟨?_, ?_⟩
    · exact countersFit_flood two_pos (by decide) (by decide) (by decide)
    · exact cancels_flood (by decide) (by decide) (by decide)

end PrioPlus
